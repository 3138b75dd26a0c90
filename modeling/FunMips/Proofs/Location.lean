import Mathlib.Algebra.Ring.Nat
import FunMips.Location
import FunMips.Proofs.Text

/-!
# Places and offsets

A location says no less than the offset it was made from. The line it numbers is that line of the
source, and the bytes in front of the line and those of as many characters as the column counts
make up the offset (`Location.At`). So an offset can be found again, two offsets have two places,
and the caret that is drawn stands under the character at the offset. Only an offset inside a
character has no place.
-/

namespace FunMips

namespace Text

/-- The offset lies inside a character, behind its first byte and in front of its last one. -/
def InCharacter (source : Text) (offset : Nat) : Prop :=
  ∃ (before : Text) (c : Char) (after : Text), source = before ++ c :: after ∧
    before.byteSize < offset ∧ offset < before.byteSize + c.utf8Size

theorem inCharacter_cons_iff {c : Char} {cs : Text} {offset : Nat} :
    InCharacter (c :: cs) offset ↔
      0 < offset ∧ offset < c.utf8Size ∨
        c.utf8Size ≤ offset ∧ InCharacter cs (offset - c.utf8Size) := by
  constructor
  · rintro ⟨before, d, after, equal, behind, ahead⟩
    cases before with
    | nil =>
      cases equal
      exact .inl ⟨behind, by simpa using ahead⟩
    | cons first before =>
      cases equal
      simp only [byteSize_cons] at behind ahead
      exact .inr ⟨by omega, before, d, after, rfl, by omega, by omega⟩
  · rintro (⟨behind, ahead⟩ | ⟨enough, before, d, after, rfl, behind, ahead⟩)
    · exact ⟨[], c, cs, rfl, behind, by simpa using ahead⟩
    · refine ⟨c :: before, d, after, rfl, ?_, ?_⟩
      · rw [byteSize_cons]
        omega
      · rw [byteSize_cons]
        omega

/-- Within a text, only an offset inside a character is no place for a cut. -/
theorem splitAt?_eq_none_iff {source : Text} {offset : Nat} (within : offset ≤ source.byteSize) :
    splitAt? source offset = none ↔ source.InCharacter offset := by
  induction source generalizing offset with
  | nil =>
    obtain rfl : offset = 0 := Nat.le_zero.1 within
    simp [splitAt?, InCharacter]
  | cons c cs ih =>
    rw [inCharacter_cons_iff, splitAt?]
    by_cases start : offset = 0
    · have positive := c.utf8Size_pos
      rw [if_pos start]
      exact iff_of_false (by simp) (by omega)
    · rw [if_neg start]
      by_cases enough : c.utf8Size ≤ offset
      · rw [byteSize_cons] at within
        rw [if_pos enough, Option.map_eq_none_iff, ih (by omega)]
        constructor
        · exact fun inside => .inr ⟨enough, inside⟩
        · rintro (⟨-, short⟩ | ⟨-, inside⟩)
          · omega
          · exact inside
      · rw [if_neg enough]
        exact iff_of_true rfl (.inl ⟨by omega, by omega⟩)

/-! ## Lines -/

section Lines

variable {separator : Char} {part : Text} {parts : List Text}

theorem splitOn_cons_of_ne {c : Char} {cs : Text} (other : c ≠ separator) {parts : List Text}
    (found : splitOn separator cs = part :: parts) :
    splitOn separator (c :: cs) = (c :: part) :: parts := by
  rw [splitOn, if_neg other, found]

/-- The first part goes up to the first separator. -/
theorem exists_splitOn_eq_cons (separator : Char) (text : Text) :
    ∃ parts, splitOn separator text = text.takeWhile (· ≠ separator) :: parts := by
  induction text with
  | nil => exact ⟨[], rfl⟩
  | cons c cs ih =>
    obtain ⟨parts, found⟩ := ih
    by_cases here : c = separator
    · exact ⟨splitOn separator cs, by simp [splitOn, here]⟩
    · refine ⟨parts, ?_⟩
      rw [splitOn_cons_of_ne here found, List.takeWhile_cons_of_pos (by simpa using here)]

/-- A part that its separator follows is split off. -/
theorem splitOn_append_cons (free : separator ∉ part) (text : Text) :
    splitOn separator (part ++ separator :: text) = part :: splitOn separator text := by
  induction part with
  | nil => simp [splitOn]
  | cons c cs ih =>
    obtain ⟨other, free⟩ := List.ne_and_not_mem_of_not_mem_cons free
    exact splitOn_cons_of_ne (Ne.symm other) (ih free)

theorem splitOn_flatMap_append (free : ∀ part ∈ parts, separator ∉ part) (text : Text) :
    splitOn separator (parts.flatMap (· ++ [separator]) ++ text) =
      parts ++ splitOn separator text := by
  induction parts with
  | nil => rfl
  | cons part parts ih =>
    obtain ⟨here, later⟩ := List.forall_mem_cons.1 free
    have unfolded : (part :: parts).flatMap (· ++ [separator]) ++ text =
        part ++ separator :: (parts.flatMap (· ++ [separator]) ++ text) := by simp
    rw [unfolded, splitOn_append_cons here, ih later, List.cons_append]

/-- Every text is made of parts that a separator follows, and a last one. -/
theorem exists_eq_flatMap_append (separator : Char) (text : Text) :
    ∃ (parts : List Text) (last : Text), text = parts.flatMap (· ++ [separator]) ++ last ∧
      (∀ part ∈ parts, separator ∉ part) ∧ separator ∉ last := by
  induction text with
  | nil => exact ⟨[], [], rfl, by simp, by simp⟩
  | cons c cs ih =>
    obtain ⟨parts, last, rfl, free, lastFree⟩ := ih
    by_cases here : c = separator
    · exact ⟨[] :: parts, last, by simp [here], by simpa using free, lastFree⟩
    · cases parts with
      | nil => exact ⟨[], c :: last, rfl, by simp, by simp [Ne.symm here, lastFree]⟩
      | cons part parts =>
        obtain ⟨first, others⟩ := List.forall_mem_cons.1 free
        refine ⟨(c :: part) :: parts, last, rfl, ?_, lastFree⟩
        exact List.forall_mem_cons.2 ⟨by simp [Ne.symm here, first], others⟩

theorem byteSize_flatMap_newline (lines : List Text) :
    byteSize (lines.flatMap (· ++ ['\n'])) = (lines.map fun line => line.byteSize + 1).sum := by
  induction lines with
  | nil => rfl
  | cons line lines ih =>
    rw [List.flatMap_cons, byteSize_append, byteSize_append, ih, List.map_cons, List.sum_cons]
    rfl

theorem count_flatMap_newline {lines : List Text} (free : ∀ line ∈ lines, '\n' ∉ line) :
    (lines.flatMap (· ++ ['\n'])).count '\n' = lines.length := by
  induction lines with
  | nil => rfl
  | cons line lines ih =>
    obtain ⟨here, later⟩ := List.forall_mem_cons.1 free
    rw [List.flatMap_cons, List.count_append, List.count_append, List.count_eq_zero.2 here,
      ih later, List.length_cons]
    simp [Nat.add_comm]

end Lines

end Text

namespace Location

open Text

/-- What stands on a line before its end is found from behind. -/
theorem takeWhile_reverse {lines : List Text} {line : Text} (free : '\n' ∉ line) :
    ((lines.flatMap (· ++ ['\n']) ++ line).reverse.takeWhile (· ≠ '\n')).reverse = line := by
  have all : ∀ c ∈ line.reverse, decide (c ≠ '\n') = true := by
    intro c member
    exact decide_eq_true fun equal => free (equal ▸ List.mem_reverse.1 member)
  have stopped : (lines.flatMap (· ++ ['\n'])).reverse.takeWhile (· ≠ '\n') = [] := by
    rcases List.eq_nil_or_concat lines with rfl | ⟨others, last, rfl⟩
    · rfl
    · simp
  rw [List.reverse_append, List.takeWhile_append_of_pos all, stopped, List.append_nil,
    List.reverse_reverse]

/-- The lines before a place, the part of its line before it, and the lines after it. -/
theorem exists_lines (before after : Text) :
    ∃ (earlier : List Text) (line : Text) (later : List Text),
      splitOn '\n' (before ++ after) =
        earlier ++ (line ++ after.takeWhile (· ≠ '\n')) :: later ∧
      '\n' ∉ line ∧
      before.byteSize = (earlier.map fun line => line.byteSize + 1).sum + line.byteSize ∧
      between before after =
        { line := earlier.length + 1
          column := line.length
          lineText := String.ofList (line ++ after.takeWhile (· ≠ '\n')) } := by
  obtain ⟨earlier, line, rfl, free, lineFree⟩ := exists_eq_flatMap_append '\n' before
  obtain ⟨later, found⟩ := exists_splitOn_eq_cons '\n' (line ++ after)
  have onLine : ∀ c ∈ line, decide (c ≠ '\n') = true := by
    intro c member
    exact decide_eq_true fun equal => lineFree (equal ▸ member)
  refine ⟨earlier, line, later, ?_, lineFree, ?_, ?_⟩
  · rw [List.append_assoc, splitOn_flatMap_append free, found,
      List.takeWhile_append_of_pos onLine]
  · rw [byteSize_append, byteSize_flatMap_newline]
  · unfold between
    rw [takeWhile_reverse lineFree, List.count_append, count_flatMap_newline free,
      List.count_eq_zero.2 lineFree]

/-- The quoted line of a location, as it is shown over the caret. -/
def quoted (location : Location) : Text := '\'' :: (location.lineText.toList ++ ['\''])

/-- The location tells where in the source the offset is. -/
structure At (source : Text) (offset : Nat) (location : Location) : Prop where
  line_pos : 1 ≤ location.line
  line_le : location.line ≤ (source.splitOn '\n').length
  /-- The text is that of the line with the number. -/
  lineText_eq : (source.splitOn '\n')[location.line - 1]? = some location.lineText.toList
  column_le : location.column ≤ location.lineText.length
  /-- In front of the offset are the lines before that one, each with its newline, and as many of
  its characters as the column counts. -/
  offset_eq : offset =
    (((source.splitOn '\n').take (location.line - 1)).map fun line => line.byteSize + 1).sum +
      Text.byteSize (location.lineText.toList.take location.column)
  /-- Two lines are shown, the second with the caret alone behind its blanks. -/
  rendered : Text.splitOn '\n' location.render.toList =
    [location.quoted, List.replicate (location.column + 1) ' ' ++ ['^']]
  /-- The caret stands under the character at the offset, or under the closing quote if the line
  ends there. -/
  caret : ∀ before after : Text, source = before ++ after → before.byteSize = offset →
    location.quoted[location.column + 1]? =
      some ((after.head?.filter (· ≠ '\n')).getD '\'')

theorem rendered_of_free {location : Location} (free : '\n' ∉ location.lineText.toList) :
    Text.splitOn '\n' location.render.toList =
      [location.quoted, List.replicate (location.column + 1) ' ' ++ ['^']] := by
  have joined : location.render.toList =
      ['\n'].intercalate
        [location.quoted, List.replicate (location.column + 1) ' ' ++ ['^']] := by
    simp [render, quoted, List.intercalate]
  rw [joined]
  refine splitOn_intercalate ?_ (by simp)
  simp [quoted, free]

/-- The place between two parts of a source is at the offset of the second. -/
theorem at_between (before after : Text) :
    (between before after).At (before ++ after) before.byteSize := by
  obtain ⟨earlier, line, later, lines, free, size, place⟩ := exists_lines before after
  have ahead : '\n' ∉ after.takeWhile (· ≠ '\n') := fun member => by
    simpa using List.all_eq_true.1 List.all_takeWhile _ member
  have next : (after.takeWhile (· ≠ '\n')).head? = after.head?.filter (· ≠ '\n') :=
    List.head?_takeWhile
  rw [place]
  generalize after.takeWhile (· ≠ '\n') = rest at lines ahead next
  refine ⟨by simp, ?_, ?_, ?_, ?_, rendered_of_free ?_, ?_⟩
  · simp [lines]
  · simp [lines]
  · simp
  · simp [lines, size]
  · simp [free, ahead]
  · intro front back same offset
    obtain ⟨rfl, rfl⟩ := eq_of_byteSize_eq same.symm offset
    rw [← next]
    cases rest <;> simp [quoted]

/-- The line and the column give the offset back. -/
theorem At.offset_unique {source : Text} {offset second : Nat} {location other : Location}
    (place : location.At source offset) (otherPlace : other.At source second)
    (line : location.line = other.line) (column : location.column = other.column) :
    offset = second := by
  have text : location.lineText.toList = other.lineText.toList := by
    have found := place.lineText_eq
    rw [line, otherPlace.lineText_eq] at found
    exact (Option.some.inj found).symm
  rw [place.offset_eq, otherPlace.offset_eq, line, column, text]

/-- A place has an offset, unless the offset lies inside a character, and tells it exactly: two
offsets between characters never have the same line and column. -/
theorem ofOffset?_exact (source : Text) :
    (∀ offset, ofOffset? source offset = none ↔
      source.InCharacter (min offset source.byteSize)) ∧
    (∀ offset location, ofOffset? source offset = some location →
      location.At source (min offset source.byteSize)) ∧
    ∀ first second location other, first ≤ source.byteSize → second ≤ source.byteSize →
      first ≠ second → ofOffset? source first = some location →
      ofOffset? source second = some other →
      (location.line, location.column) ≠ (other.line, other.column) := by
  have exact (offset : Nat) (location : Location)
      (found : ofOffset? source offset = some location) :
      location.At source (min offset source.byteSize) := by
    obtain ⟨⟨before, after⟩, cut, rfl⟩ := Option.map_eq_some_iff.1 found
    obtain ⟨rfl, size⟩ := eq_of_splitAt? cut
    rw [← size]
    exact at_between before after
  refine ⟨fun offset => ?_, exact, ?_⟩
  · rw [← splitAt?_eq_none_iff (Nat.min_le_right _ _)]
    exact Option.map_eq_none_iff
  · intro first second location other inside insideOther differ found foundOther same
    obtain ⟨line, column⟩ := Prod.mk.inj same
    have equal := (exact first location found).offset_unique (exact second other foundOther) line
      column
    rw [Nat.min_eq_left inside, Nat.min_eq_left insideOther] at equal
    exact differ equal

/-- Two lines with characters of two bytes: `é` and `βx`. -/
def twoLines : Text := ['é', '\n', 'β', 'x']

theorem ofOffset?_exact_twoLines :
    twoLines.InCharacter 4 ∧
      ∃ location other, ofOffset? twoLines 3 = some location ∧
        ofOffset? twoLines 5 = some other ∧ other.At twoLines 5 ∧
        other = { line := 2, column := 1, lineText := "βx" } ∧
        (location.line, location.column) ≠ (other.line, other.column) := by
  have ⟨refused, placed, apart⟩ := ofOffset?_exact twoLines
  have here : ofOffset? twoLines 3 = some { line := 2, column := 0, lineText := "βx" } := by decide
  have there : ofOffset? twoLines 5 = some { line := 2, column := 1, lineText := "βx" } := by decide
  exact ⟨(refused 4).1 (by decide), _, _, here, there, placed 5 _ there, rfl,
    apart 3 5 _ _ (by decide) (by decide) (by decide) here there⟩

end Location

end FunMips
