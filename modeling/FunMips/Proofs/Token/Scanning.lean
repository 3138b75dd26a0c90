import FunMips.Proofs.Location
import FunMips.Proofs.Program.Concatenation
import FunMips.Proofs.Token.Decomposition
import FunMips.Proofs.Token.Faults

/-!
# Scanning from any offset

A scan goes through bytes and is told where to start. From an offset between two characters it
reads a lexeme or meets a fault as the text behind the offset has it, whatever stands in front
(`scan_of_longest`, `scan_of_front`), and from an offset inside a character it gets nowhere
(`scan_of_inCharacter`). So it says of a text behind another what it says of the text alone
(`scan_shift`, `scan_fault`), and a lexer can go on from its offset (`Lexer.next_by_offset`).
-/

namespace FunMips

/-! ## Parts of a source -/

theorem Text.cut_append (before part after : Text) :
    Text.cut (before ++ (part ++ after)) before.byteSize (before.byteSize + part.byteSize) =
      .ok part := by
  rw [Text.cut, Nat.add_sub_cancel_left,
    Text.slice?_eq_some_iff.2 ⟨before, after, rfl, rfl, rfl⟩]

theorem Text.cut_to_end (before rest : Text) :
    Text.cut (before ++ rest) before.byteSize (before ++ rest).byteSize = .ok rest := by
  have cut := cut_append before rest []
  rwa [List.append_nil, ← byteSize_append] at cut

theorem Text.InCharacter.lt {source : Text} {offset : Nat} (inside : source.InCharacter offset) :
    offset < source.byteSize := by
  obtain ⟨before, c, after, rfl, -, ahead⟩ := inside
  rw [byteSize_append, byteSize_cons]
  omega

/-- An offset of a text lies inside a character or between two. -/
theorem Text.isBoundary_iff {source : Text} {offset : Nat} (within : offset ≤ source.byteSize) :
    source.IsBoundary offset ↔ ¬ source.InCharacter offset := by
  rw [← splitAt?_eq_none_iff within]
  constructor
  · rintro ⟨before, after, rfl, rfl⟩
    rw [splitAt?_append]
    simp
  · intro found
    obtain ⟨⟨before, after⟩, cut⟩ := Option.ne_none_iff_exists'.1 found
    obtain ⟨split, size⟩ := eq_of_splitAt? cut
    exact ⟨before, after, split, size⟩

/-- Inside a character nothing can be cut out. -/
theorem Text.cut_of_inCharacter {source : Text} {start : Nat} (inside : source.InCharacter start)
    (stop : Nat) : source.cut start stop = .error .splitCharacter := by
  unfold cut
  split
  · next part found =>
    obtain ⟨before, after, split, size, -⟩ := slice?_eq_some_iff.1 found
    have boundary : source.IsBoundary start := ⟨before, part ++ after, split, size⟩
    exact absurd inside ((isBoundary_iff (Nat.le_of_lt inside.lt)).1 boundary)
  · rfl

/-- The byte at an offset is one of the character that the offset lies at or inside of. -/
theorem exists_byte (before : Text) (c : Char) (after : Text) {offset : Nat}
    (behind : before.byteSize ≤ offset) (ahead : offset < before.byteSize + c.utf8Size) :
    ∃ byte ∈ String.utf8EncodeChar c, (before ++ c :: after).bytes[offset]? = some byte := by
  have covered : offset - before.byteSize < (String.utf8EncodeChar c).length := by
    rw [String.length_utf8EncodeChar]
    omega
  refine ⟨(String.utf8EncodeChar c)[offset - before.byteSize], List.getElem_mem covered, ?_⟩
  rw [Text.bytes_append, List.getElem?_append_right (by simpa using behind), Text.length_bytes,
    Text.bytes_cons, List.getElem?_append_left covered, List.getElem?_eq_getElem covered]

/-! ## The token at an offset -/

theorem Lexeme.Fault.Front.ends_blanks {fault : Lexeme.Fault} {rest : Text}
    (front : fault.Front rest) : ∀ c ∈ rest.head?, isBlank c = false := by
  obtain ⟨c, cs, rfl, noBlank, -⟩ := front.exists_read
  simpa using noBlank

namespace Reader

variable {source : Reader} {place rest : Text} {lexeme : Lexeme} {fault : Lexeme.Fault}

/-- A fault is reported at the place of an offset. -/
def refuse {α : Type} (source : Reader) (fault : Lexeme.Fault) (offset : Nat) : Except Stop α := do
  let location ← source.locate offset
  throw (.refused (fault.diagnose location))

theorem refuse_ofText {α : Type} (place rest : Text) (fault : Lexeme.Fault) :
    ((ofText (place ++ rest)).refuse fault place.byteSize : Except Stop α) =
      .error (fault.stop (place ++ rest) place.byteSize) := by
  obtain ⟨location, found, stop⟩ := fault.exists_location place rest
  have located : Location.locate (place ++ rest) place.byteSize = .ok location := by
    rw [Location.locate, found]
  rw [stop]
  show Location.locate (place ++ rest) place.byteSize >>= _ = _
  rw [located]
  rfl

theorem tokenAt_end {start : Nat} (past : source.text.byteSize ≤ start) :
    source.tokenAt start = .ok none := by
  rw [tokenAt, List.getElem?_eq_none (by simpa using past)]

/-- What is done at an offset is known from the first byte of the character there. -/
theorem exists_first_byte {c : Char} {cs : Text} (split : source.text = place ++ c :: cs) :
    ∃ byte, source.text.bytes[place.byteSize]? = some byte ∧
      punctuation? (Char.ofUInt8 byte) = punctuation? c ∧
      (Char.ofUInt8 byte).isDigit = c.isDigit := by
  obtain ⟨byte, member, found⟩ := exists_byte place c cs (Nat.le_refl place.byteSize)
    (Nat.lt_add_of_pos_right c.utf8Size_pos)
  rw [← split] at found
  exact ⟨byte, found, asciiOnly_punctuation?.byte_eq member, asciiOnly_isDigit.byte_eq member⟩

theorem tokenAt_of_mark {c : Char} {kind : Kind} (listed : (c, kind) ∈ marks) {cs : Text}
    (split : source.text = place ++ c :: cs) :
    source.tokenAt place.byteSize =
      .ok (some { token := { kind, start := place.byteSize, length := 1 }
                  next := place.byteSize + 1 }) := by
  obtain ⟨byte, found, mark, -⟩ := exists_first_byte split
  rw [punctuation?_eq_some_iff.2 listed] at mark
  simp only [tokenAt, found, mark]

theorem tokenAt_of_digit {c : Char} (isDigit : c.isDigit) {cs : Text}
    (split : source.text = place ++ c :: cs) :
    source.tokenAt place.byteSize = some <$> source.numberAt place.byteSize := by
  obtain ⟨byte, found, mark, digit⟩ := exists_first_byte split
  have noMark := not_mark_of_isWordChar (isWordChar_of_isDigit isDigit)
  rw [punctuation?_eq_none_iff.2 noMark] at mark
  simp only [tokenAt, found, mark, digit, isDigit, if_true]

theorem tokenAt_of_other {c : Char} (noMark : ∀ kind, (c, kind) ∉ marks)
    (noDigit : c.isDigit = false) {cs : Text} (split : source.text = place ++ c :: cs) :
    source.tokenAt place.byteSize = some <$> source.wordAt place.byteSize := by
  obtain ⟨byte, found, mark, digit⟩ := exists_first_byte split
  rw [punctuation?_eq_none_iff.2 noMark] at mark
  simp only [tokenAt, found, mark, digit, noDigit, Bool.false_eq_true, if_false]

theorem numberAt_of_digits {digits : Text} (split : source.text = place ++ (digits ++ rest))
    (all : ∀ c ∈ digits, c.isDigit) (ends : ∀ c ∈ rest.head?, c.isDigit = false) :
    source.numberAt place.byteSize =
      match number? digits with
      | some value => .ok
        { token :=
            { kind := .number, start := place.byteSize, length := digits.byteSize,
              value := some value }
          next := place.byteSize + digits.byteSize }
      | none => source.refuse (.tooLarge digits) place.byteSize := by
  rw [numberAt, split, asciiOnly_isDigit.runEnd_run place all ends, Text.cut_append,
    Nat.add_sub_cancel_left, ok_bind]
  cases number? digits <;> rfl

theorem wordAt_of_word {word : Text} (split : source.text = place ++ (word ++ rest))
    (some : word ≠ []) (all : ∀ c ∈ word, isWordChar c)
    (ends : ∀ c ∈ rest.head?, isWordChar c = false) :
    source.wordAt place.byteSize = .ok
      { token := { kind := wordKind word, start := place.byteSize, length := word.byteSize }
        next := place.byteSize + word.byteSize } := by
  have longer : place.byteSize < place.byteSize + word.byteSize :=
    Nat.lt_add_of_pos_right (Text.byteSize_pos (List.length_pos_of_ne_nil some))
  rw [wordAt, split, asciiOnly_isWordChar.runEnd_run place all ends, Text.cut_to_end, ok_bind,
    if_pos longer, Text.cut_append, ok_bind, Nat.add_sub_cancel_left]
  rfl

/-- A character of no word is reported as it stands. -/
theorem wordAt_of_not {c : Char} {cs : Text} (split : source.text = place ++ c :: cs)
    (noWord : isWordChar c = false) :
    source.wordAt place.byteSize = source.refuse (.unrecognized c) place.byteSize := by
  have nothing : runEnd (place ++ c :: cs).bytes place.byteSize isWordChar = place.byteSize := by
    rw [asciiOnly_isWordChar.runEnd_append, List.takeWhile_cons_of_neg (by simp [noWord]),
      Text.byteSize_nil, Nat.add_zero]
  rw [wordAt, split, nothing, Text.cut_to_end, ok_bind, if_neg (Nat.lt_irrefl _)]
  rfl

theorem tokenAt_of_longest (split : source.text = place ++ (lexeme.text ++ rest))
    (longest : lexeme.Longest rest) :
    source.tokenAt place.byteSize =
      .ok (some { token := lexeme.token place.byteSize
                  next := place.byteSize + lexeme.text.byteSize }) := by
  cases longest with
  | @mark c kind _ listed =>
    have oneByte : ∀ entry ∈ marks, entry.1.utf8Size = 1 := by decide
    have size : Text.byteSize [c] = 1 := oneByte (c, kind) listed
    rw [tokenAt_of_mark listed split, Lexeme.token, size]
  | @number c cs _ value all ends small denotes =>
    rw [tokenAt_of_digit (all c List.mem_cons_self) split, numberAt_of_digits split all ends,
      number?_eq_some_iff.2 ⟨small, denotes⟩]
    rfl
  | @word c cs _ kind starts all ends named =>
    have noMark := not_mark_of_isWordChar (all c List.mem_cons_self)
    rw [tokenAt_of_other noMark starts split,
      wordAt_of_word split (List.cons_ne_nil c cs) all ends, wordKind_eq_iff.2 named]
    rfl

theorem tokenAt_of_front (split : source.text = place ++ rest) (front : fault.Front rest) :
    source.tokenAt place.byteSize = source.refuse fault place.byteSize := by
  have reported {α β : Type} (make : α → β) (offset : Nat) :
      make <$> (source.refuse fault offset : Except Stop α) = source.refuse fault offset := by
    unfold refuse
    cases source.locate offset <;> rfl
  cases front with
  | unrecognized _ noMark noWord =>
    rw [tokenAt_of_other noMark (not_isDigit_of_not_isWordChar noWord) split,
      wordAt_of_not split noWord, reported]
  | @tooLarge c cs rest all ends large =>
    rw [tokenAt_of_digit (all c List.mem_cons_self) split, numberAt_of_digits split all ends,
      number?_eq_none_iff.2 large]
    exact reported some place.byteSize

/-! ## The first token at or after an offset -/

variable {before blanks : Text} {offset : Nat}

theorem scan_past_end (past : source.text.byteSize ≤ offset) : source.scan offset = .ok none :=
  tokenAt_end (Nat.le_trans past (Nat.le_add_right _ _))

theorem scan_of_blank (split : source.text = before ++ rest) (blank : ∀ c ∈ rest, isBlank c) :
    source.scan before.byteSize = .ok none := by
  have skipped := asciiOnly_isBlank.runEnd_append before rest
  rw [List.takeWhile_eq_self_iff.2 blank, ← Text.byteSize_append, ← split] at skipped
  rw [scan, skipped]
  exact tokenAt_end (Nat.le_refl _)

theorem scan_of_longest (split : source.text = before ++ (blanks ++ (lexeme.text ++ rest)))
    (blank : ∀ c ∈ blanks, isBlank c) (longest : lexeme.Longest rest) :
    source.scan before.byteSize =
      .ok (some { token := lexeme.token (before.byteSize + blanks.byteSize)
                  next := before.byteSize + blanks.byteSize + lexeme.text.byteSize }) := by
  have ends : ∀ c ∈ (lexeme.text ++ rest).head?, isBlank c = false := by
    obtain ⟨c, cs, front, noBlank, -⟩ := longest.exists_read
    rw [front]
    simpa using noBlank
  rw [scan, split, asciiOnly_isBlank.runEnd_run before blank ends, ← Text.byteSize_append]
  exact tokenAt_of_longest (by rw [split, List.append_assoc]) longest

theorem scan_of_front (split : source.text = before ++ (blanks ++ rest))
    (blank : ∀ c ∈ blanks, isBlank c) (front : fault.Front rest) :
    source.scan before.byteSize = source.refuse fault (before.byteSize + blanks.byteSize) := by
  rw [scan, split, asciiOnly_isBlank.runEnd_run before blank front.ends_blanks,
    ← Text.byteSize_append]
  exact tokenAt_of_front (by rw [split, List.append_assoc]) front

end Reader

section

variable {source before blanks rest : Text} {offset : Nat} {lexeme : Lexeme}
variable {fault : Lexeme.Fault}

theorem scan_past_end (past : source.byteSize ≤ offset) : scan source offset = .ok none :=
  Reader.scan_past_end past

/-- A byte inside a character is of none of the classes. -/
theorem Text.InCharacter.exists_byte (inside : source.InCharacter offset) :
    ∃ byte, source.bytes[offset]? = some byte ∧ 0x80 ≤ (Char.ofUInt8 byte).toNat := by
  obtain ⟨before, c, after, rfl, behind, ahead⟩ := inside
  obtain ⟨byte, member, found⟩ := FunMips.exists_byte before c after (Nat.le_of_lt behind) ahead
  have large : 0x80 ≤ c.toNat := by
    by_contra small
    have one : c.utf8Size = 1 := Char.utf8Size_eq_one_iff.2
      (UInt32.le_iff_toNat_le.2 (Nat.le_of_lt_succ (Nat.lt_of_not_le small)))
    omega
  refine ⟨byte, found, ?_⟩
  rcases ofUInt8_of_mem member with same | ⟨-, high⟩
  · rw [same]
    exact large
  · exact high

/-- From inside a character no token is read: no blank is skipped, and nothing can be cut out. -/
theorem scan_of_inCharacter (inside : source.InCharacter offset) :
    scan source offset = .error .splitCharacter := by
  obtain ⟨byte, found, high⟩ := inside.exists_byte
  rw [scan, Reader.scan, runEnd_of_not found (asciiOnly_isBlank _ high), Reader.tokenAt, found]
  dsimp only
  rw [asciiOnly_punctuation? _ high, asciiOnly_isDigit _ high]
  dsimp only
  rw [if_neg Bool.false_ne_true, Reader.wordAt, Text.cut_of_inCharacter inside]
  rfl

theorem scan_of_blank (before : Text) (blank : ∀ c ∈ rest, isBlank c) :
    scan (before ++ rest) before.byteSize = .ok none :=
  Reader.scan_of_blank rfl blank

theorem scan_of_longest (before : Text) (blank : ∀ c ∈ blanks, isBlank c)
    (longest : lexeme.Longest rest) :
    scan (before ++ (blanks ++ (lexeme.text ++ rest))) before.byteSize =
      .ok (some { token := lexeme.token (before.byteSize + blanks.byteSize)
                  next := before.byteSize + blanks.byteSize + lexeme.text.byteSize }) :=
  Reader.scan_of_longest rfl blank longest

theorem scan_of_front (before : Text) (blank : ∀ c ∈ blanks, isBlank c)
    (front : fault.Front rest) :
    scan (before ++ (blanks ++ rest)) before.byteSize =
      .error (fault.stop (before ++ (blanks ++ rest)) (before.byteSize + blanks.byteSize)) := by
  refine (Reader.scan_of_front rfl blank front).trans ?_
  rw [← Text.byteSize_append, ← List.append_assoc]
  exact Reader.refuse_ofText (before ++ blanks) rest fault

theorem scan_eq_none_iff (before rest : Text) :
    scan (before ++ rest) before.byteSize = .ok none ↔ ∀ c ∈ rest, isBlank c := by
  refine ⟨fun nothing => ?_, scan_of_blank before⟩
  obtain ⟨tokens, ending, reading⟩ := exists_reading 0 rest
  cases reading with
  | ends blank => exact blank
  | fails blank front => cases (scan_of_front before blank front).symm.trans nothing
  | token blank longest => cases (scan_of_longest before blank longest).symm.trans nothing

/-- A token that is read stands for a lexeme at or after the offset, and ends between characters. -/
theorem scan_eq_some {scanned : Scanned} (found : scan source offset = .ok (some scanned)) :
    scanned.token.Spans source ∧ offset ≤ scanned.token.start ∧ 1 ≤ scanned.token.length ∧
      scanned.next = scanned.token.start + scanned.token.length ∧
      source.IsBoundary scanned.next := by
  have within : offset < source.byteSize := by
    by_contra past
    cases (scan_past_end (Nat.le_of_not_lt past)).symm.trans found
  have between : ¬ source.InCharacter offset := by
    intro inside
    cases (scan_of_inCharacter inside).symm.trans found
  obtain ⟨before, rest, rfl, rfl⟩ := (Text.isBoundary_iff (Nat.le_of_lt within)).2 between
  obtain ⟨tokens, ending, reading⟩ := exists_reading 0 rest
  cases reading with
  | ends blank => cases (scan_of_blank before blank).symm.trans found
  | fails blank front => cases (scan_of_front before blank front).symm.trans found
  | @token _ blanks rest lexeme _ _ blank longest =>
    cases (scan_of_longest before blank longest).symm.trans found
    refine ⟨?_, Nat.le_add_right _ _, longest.byteSize_pos, rfl, ?_⟩
    · refine ⟨before ++ blanks, lexeme, rest, by simp, longest, ?_⟩
      rw [Text.byteSize_append]
    · refine ⟨before ++ (blanks ++ lexeme.text), rest, by simp, ?_⟩
      rw [Text.byteSize_append, Text.byteSize_append, Nat.add_assoc]

/-! ## The text behind an offset -/

/-- What was read, that many bytes further on. -/
def Scanned.shift (count : Nat) (scanned : Scanned) : Scanned :=
  { token := scanned.token.shift count, next := count + scanned.next }

/-- What a text begins with is found behind another text too, further on. -/
theorem scan_shift (before : Text) {found : Option Scanned} (answer : scan rest 0 = .ok found) :
    scan (before ++ rest) before.byteSize =
      .ok (found.map (Scanned.shift before.byteSize)) := by
  obtain ⟨tokens, ending, reading⟩ := exists_reading 0 rest
  cases reading with
  | ends blank =>
    cases (scan_of_blank [] blank).symm.trans answer
    exact scan_of_blank before blank
  | fails blank front => cases (scan_of_front [] blank front).symm.trans answer
  | token blank longest =>
    cases (scan_of_longest [] blank longest).symm.trans answer
    rw [scan_of_longest before blank longest]
    simp [Scanned.shift, Token.shift, Lexeme.token, Nat.add_assoc]

/-- A fault that a text begins with is found behind another text too, and only its place is told
differently. -/
theorem scan_fault (before : Text) {stop : Stop} (answer : scan rest 0 = .error stop) :
    ∃ (blanks after : Text) (fault : Lexeme.Fault) (there here : Location),
      rest = blanks ++ after ∧ (∀ c ∈ blanks, isBlank c) ∧ fault.Front after ∧
      Location.ofOffset? rest blanks.byteSize = some there ∧
      stop = .refused (fault.diagnose there) ∧
      Location.ofOffset? (before ++ rest) (before.byteSize + blanks.byteSize) = some here ∧
      scan (before ++ rest) before.byteSize = .error (.refused (fault.diagnose here)) := by
  obtain ⟨tokens, ending, reading⟩ := exists_reading 0 rest
  cases reading with
  | ends blank => cases (scan_of_blank [] blank).symm.trans answer
  | token blank longest => cases (scan_of_longest [] blank longest).symm.trans answer
  | @fails _ blanks after fault blank front =>
    cases (scan_of_front [] blank front).symm.trans answer
    obtain ⟨there, foundThere, alone⟩ := fault.exists_location blanks after
    obtain ⟨here, foundHere, behind⟩ := fault.exists_location (before ++ blanks) after
    rw [List.append_assoc, Text.byteSize_append] at foundHere behind
    refine ⟨blanks, after, fault, there, here, rfl, blank, front, foundThere, ?_, foundHere, ?_⟩
    · rw [Text.byteSize_nil, Nat.zero_add]
      exact alone
    · rw [scan_of_front before blank front, behind]

end

/-- A scan reads only what stands behind its offset. Inside a character it stops, at the end of the
source and past it there is nothing, and anywhere else it answers what a scan of the text behind
the offset answers, with the places moved on: nothing if the text is blank, the token, or the same
fault at its place in the whole source. Each token that is found stands for a lexeme, covers bytes
at or after the offset and ends between characters. -/
theorem scan_reads_only_behind (source : Text) (offset : Nat) :
    (scan source offset = .error .splitCharacter ↔
      offset < source.byteSize ∧ source.InCharacter offset) ∧
    (source.byteSize ≤ offset → scan source offset = .ok none) ∧
    (offset < source.byteSize → ¬ source.InCharacter offset →
      ∃ rest, source.drop? offset = some rest ∧
        (scan source offset = .ok none ↔ ∀ c ∈ rest, isBlank c) ∧
        (∀ found, scan rest 0 = .ok found →
          scan source offset = .ok (found.map (Scanned.shift offset))) ∧
        ∀ stop, scan rest 0 = .error stop →
          ∃ (blanks after : Text) (fault : Lexeme.Fault) (there here : Location),
            rest = blanks ++ after ∧ (∀ c ∈ blanks, isBlank c) ∧ fault.Front after ∧
            Location.ofOffset? rest blanks.byteSize = some there ∧
            stop = .refused (fault.diagnose there) ∧
            Location.ofOffset? source (offset + blanks.byteSize) = some here ∧
            scan source offset = .error (.refused (fault.diagnose here))) ∧
    ∀ scanned, scan source offset = .ok (some scanned) →
      scanned.token.Spans source ∧ offset ≤ scanned.token.start ∧ 1 ≤ scanned.token.length ∧
        scanned.next = scanned.token.start + scanned.token.length ∧
        scanned.next ≤ source.byteSize ∧ source.IsBoundary scanned.next := by
  refine ⟨⟨?_, fun ⟨_, inside⟩ => scan_of_inCharacter inside⟩, scan_past_end, ?_, ?_⟩
  · intro stopped
    by_contra outside
    rcases Nat.lt_or_ge offset source.byteSize with within | past
    · have between : ¬ source.InCharacter offset := fun inside => outside ⟨within, inside⟩
      obtain ⟨before, rest, rfl, rfl⟩ := (Text.isBoundary_iff (Nat.le_of_lt within)).2 between
      cases answer : scan rest 0 with
      | ok found => cases (scan_shift before answer).symm.trans stopped
      | error stop =>
        obtain ⟨_, _, _, _, _, -, -, -, -, -, -, refused⟩ := scan_fault before answer
        cases refused.symm.trans stopped
    · cases (scan_past_end past).symm.trans stopped
  · intro within between
    obtain ⟨before, rest, rfl, rfl⟩ := (Text.isBoundary_iff (Nat.le_of_lt within)).2 between
    refine ⟨rest, ?_, scan_eq_none_iff before rest, fun found => scan_shift before,
      fun stop => scan_fault before⟩
    rw [Text.drop?_eq_map_splitAt?, Text.splitAt?_append]
    rfl
  · intro scanned found
    obtain ⟨spans, behind, nonempty, ends, boundary⟩ := scan_eq_some found
    exact ⟨spans, behind, nonempty, ends, boundary.le, boundary⟩

/-- The source `é x9 4294967296`: a character of two bytes, a name, and a number too large. -/
def uneven : Text :=
  ['é', ' ', 'x', '9', ' ', '4', '2', '9', '4', '9', '6', '7', '2', '9', '6']

theorem scan_reads_only_behind_uneven :
    uneven.InCharacter 1 ∧ scan uneven 1 = .error .splitCharacter ∧
      scan uneven 2 =
        .ok (some { token := { kind := .ident, start := 3, length := 2 }, next := 5 }) ∧
      uneven.IsBoundary 5 ∧
      ∃ location, Location.ofOffset? uneven 6 = some location ∧
        scan uneven 5 = .error (.refused (.invalidNumber "4294967296" location)) := by
  have inside : uneven.InCharacter 1 := ⟨[], 'é', uneven.tail, rfl, by decide, by decide⟩
  have between (offset : Nat) (found : uneven.splitAt? offset ≠ none)
      (within : offset ≤ uneven.byteSize) : ¬ uneven.InCharacter offset := by
    rwa [← Text.splitAt?_eq_none_iff within]
  have atName : scan uneven 2 =
      .ok (some { token := { kind := .ident, start := 3, length := 2 }, next := 5 }) := by
    obtain ⟨-, -, behind, -⟩ := scan_reads_only_behind uneven 2
    obtain ⟨rest, cut, -, ok, -⟩ := behind (by decide) (between 2 (by decide) (by decide))
    cases cut.symm.trans (show uneven.drop? 2 = some (uneven.drop 1) by decide)
    exact ok (some { token := { kind := .ident, start := 1, length := 2 }, next := 3 })
      (by decide +kernel)
  have boundary : uneven.IsBoundary 5 := by
    obtain ⟨-, -, -, ends⟩ := scan_reads_only_behind uneven 2
    exact (ends _ atName).2.2.2.2.2
  refine ⟨inside, (scan_reads_only_behind uneven 1).1.2 ⟨by decide, inside⟩, atName, boundary, ?_⟩
  obtain ⟨-, -, behind, -⟩ := scan_reads_only_behind uneven 5
  obtain ⟨rest, cut, -, -, refused⟩ := behind (by decide) (between 5 (by decide) (by decide))
  cases cut.symm.trans (show uneven.drop? 5 = some (uneven.drop 4) by decide)
  have failed : scan (uneven.drop 4) 0 = .error (.refused (.invalidNumber "4294967296"
      { line := 1, column := 1, lineText := " 4294967296" })) := by decide +kernel
  obtain ⟨blanks, after, fault, there, here, split, blank, front, -, same, placed, answer⟩ :=
    refused _ failed
  have one : blanks = [' '] := by
    have run := takeWhile_run blank front.ends_blanks
    rw [← split] at run
    exact run.symm.trans (by decide)
  subst one
  cases fault with
  | unrecognized => cases same
  | tooLarge digits =>
    simp only [Lexeme.Fault.diagnose, Stop.refused.injEq, Diagnostic.invalidNumber.injEq] at same
    rw [Lexeme.Fault.diagnose, ← same.1] at answer
    exact ⟨here, placed, answer⟩

/-! ## A walk by offsets -/

/-- What stands behind an offset between characters gives the token that a scan from there finds. -/
theorem scan_eq_scanRest (before rest : Text) :
    scan (before ++ rest) before.byteSize =
      (scanRest (before ++ rest) before.byteSize rest).map
        (Option.map fun taken => { token := taken.token, next := taken.next }) := by
  obtain ⟨tokens, ending, reading⟩ := exists_reading 0 rest
  cases reading with
  | ends blank =>
    rw [scan_of_blank before blank, scanRest_of_blank blank]
    rfl
  | fails blank front =>
    rw [scan_of_front before blank front, scanRest_of_front blank front]
    rfl
  | token blank longest =>
    rw [scan_of_longest before blank longest, scanRest_of_longest blank longest]
    rfl

theorem Lexer.next_of_finished {lexer : Lexer}
    (found : scanRest lexer.source lexer.offset lexer.rest = .ok none)
    (finished : lexer.finished) : lexer.next = (.ok none, lexer) := by
  unfold next
  split
  · next some => cases some.symm.trans found
  · rw [if_pos finished]
  · next failed => cases failed.symm.trans found

/-- A call of a lexer that keeps an offset and the mark that it is finished (`next_token`): it scans
the source from the offset, and moves the offset on, or to the end. -/
def Reader.nextFrom (source : Reader) (offset : Nat) (finished : Bool) :
    Except Stop (Option Token) × Nat × Bool :=
  match source.scan offset with
  | .ok (some scanned) => (.ok (some scanned.token), scanned.next, finished)
  | .ok none =>
    if finished then (.ok none, offset, true)
    else (.ok (some (Token.endOf source.text)), source.text.byteSize, true)
  | .error stop => (.error stop, source.text.byteSize, true)

/-- A lexer keeps the text that is left, but its offset and its mark would do. -/
theorem Lexer.next_by_offset (lexer : Lexer) :
    (lexer.next.1, lexer.next.2.offset, lexer.next.2.finished) =
      Reader.nextFrom lexer.source lexer.offset lexer.finished := by
  have same : scan lexer.source lexer.offset =
      (scanRest lexer.source lexer.offset lexer.rest).map
        (Option.map fun taken => { token := taken.token, next := taken.next }) := by
    obtain ⟨before, split, size⟩ := lexer.source_eq
    rw [split, ← size]
    exact scan_eq_scanRest before lexer.rest
  unfold scan at same
  unfold Reader.nextFrom
  cases found : scanRest lexer.source lexer.offset lexer.rest with
  | error stop =>
    rw [found] at same
    rw [same, next_of_error found, ← lexer.size_eq]
    rfl
  | ok taken? =>
    rw [found] at same
    rw [same]
    cases taken? with
    | some taken =>
      rw [next_of_scanRest found]
      rfl
    | none =>
      by_cases finished : lexer.finished
      · rw [next_of_finished found finished]
        simp [Except.map, finished]
      · have unfinished : lexer.finished = false := by simpa using finished
        rw [next_of_end found unfinished, ← lexer.size_eq]
        simp [Except.map, unfinished, exhausted]

end FunMips
