import FunMips.Text

/-!
# Parts of a text and their bytes

Two ways to cut a text are compared by the bytes in front of the cut, an offset that a text can be
cut at is a boundary (`Text.IsBoundary`), and the bytes of a part are found in the whole text at the
offsets the part covers (`Text.mem_bytes_iff`). What is cut out of a text at an offset is the part
that stands there (`Text.slice?_eq_some_iff`), and what was joined by a separator is found again
between the separators (`Text.splitOn_intercalate`).
-/

namespace FunMips.Text

variable {before rest other more part : Text}

theorem byteSize_eq_zero_iff {text : Text} : text.byteSize = 0 ↔ text = [] := by
  cases text with
  | nil => simp
  | cons c cs =>
    have positive := c.utf8Size_pos
    simp only [byteSize_cons, reduceCtorEq, iff_false]
    omega

/-- Of two cuts through a text, the later one cuts what stands after the earlier one. -/
theorem exists_gap (same : before ++ rest = other ++ more)
    (earlier : before.byteSize ≤ other.byteSize) :
    ∃ gap, other = before ++ gap ∧ rest = gap ++ more := by
  rcases List.append_eq_append_iff.1 same with ⟨gap, front, back⟩ | ⟨gap, front, back⟩
  · exact ⟨gap, front, back⟩
  · have none : gap = [] := by
      rw [front, byteSize_append] at earlier
      exact byteSize_eq_zero_iff.1 (by omega)
    subst none
    exact ⟨[], by simpa using front.symm, by simpa using back.symm⟩

/-- Two cuts behind the same number of bytes are one. -/
theorem eq_of_byteSize_eq (same : before ++ rest = other ++ more)
    (size : before.byteSize = other.byteSize) : before = other ∧ rest = more := by
  rcases exists_gap same (Nat.le_of_eq size) with ⟨gap, rfl, rfl⟩
  have none : gap = [] := by
    rw [byteSize_append] at size
    exact byteSize_eq_zero_iff.1 (by omega)
  simp [none]

/-- The offset lies at an end of the text or between two characters. -/
def IsBoundary (source : Text) (offset : Nat) : Prop :=
  ∃ before after, source = before ++ after ∧ before.byteSize = offset

namespace IsBoundary

variable {source before after : Text} {offset : Nat}

theorem le (boundary : source.IsBoundary offset) : offset ≤ source.byteSize := by
  obtain ⟨before, after, rfl, rfl⟩ := boundary
  rw [byteSize_append]
  exact Nat.le_add_right _ _

theorem of_append (split : source = before ++ after) : source.IsBoundary before.byteSize :=
  ⟨before, after, split, rfl⟩

theorem byteSize (source : Text) : source.IsBoundary source.byteSize :=
  ⟨source, [], (List.append_nil source).symm, rfl⟩

end IsBoundary

/-- A part is cut out exactly where it stands. -/
theorem slice?_eq_some_iff {text : Text} {start length : Nat} :
    text.slice? start length = some part ↔
      ∃ before after, text = before ++ (part ++ after) ∧ before.byteSize = start ∧
        part.byteSize = length := by
  unfold slice?
  rw [drop?_eq_map_splitAt?]
  constructor
  · intro found
    obtain ⟨after, dropped, found⟩ := Option.bind_eq_some_iff.1 found
    obtain ⟨⟨before, _⟩, cut, rfl⟩ := Option.map_eq_some_iff.1 dropped
    obtain ⟨⟨_, rest⟩, inner, equal⟩ := Option.bind_eq_some_iff.1 found
    cases equal
    obtain ⟨rfl, start_eq⟩ := eq_of_splitAt? cut
    obtain ⟨rfl, length_eq⟩ := eq_of_splitAt? inner
    exact ⟨before, rest, rfl, start_eq, length_eq⟩
  · rintro ⟨before, after, rfl, rfl, rfl⟩
    rw [splitAt?_append]
    simp [splitAt?_append]

theorem bytes_cons (c : Char) (cs : Text) : bytes (c :: cs) = String.utf8EncodeChar c ++ bytes cs :=
  List.flatMap_cons

theorem bytes_append (s t : Text) : (s ++ t).bytes = s.bytes ++ t.bytes := List.flatMap_append

@[simp] theorem length_bytes (text : Text) : text.bytes.length = text.byteSize := by
  induction text with
  | nil => rfl
  | cons c cs ih =>
    rw [bytes_cons, List.length_append, String.length_utf8EncodeChar, ih, byteSize_cons]

/-- The bytes of a part are those the whole text has at the offsets of the part. -/
theorem mem_bytes_iff (before after : Text) {byte : UInt8} :
    byte ∈ part.bytes ↔ ∃ i, before.byteSize ≤ i ∧ i < before.byteSize + part.byteSize ∧
      (before ++ (part ++ after)).bytes[i]? = some byte := by
  have inside {i : Nat} (covered : i < part.byteSize) :
      (before ++ (part ++ after)).bytes[before.byteSize + i]? = part.bytes[i]? := by
    rw [bytes_append, bytes_append, List.getElem?_append_right (by simp), length_bytes,
      Nat.add_sub_cancel_left, List.getElem?_append_left (by simpa using covered)]
  rw [List.mem_iff_getElem?]
  constructor
  · intro ⟨i, found⟩
    have covered : i < part.byteSize := by
      rw [← length_bytes]
      exact (List.getElem?_eq_some_iff.1 found).1
    exact ⟨before.byteSize + i, by omega, by omega, (inside covered).trans found⟩
  · intro ⟨i, starts, ends, found⟩
    have shift : i = before.byteSize + (i - before.byteSize) := by omega
    rw [shift, inside (by omega)] at found
    exact ⟨i - before.byteSize, found⟩

/-! ## Splitting -/

theorem splitOn_eq (separator : Char) (text : Text) :
    splitOn separator text = List.splitOn separator text := by
  induction text with
  | nil => rfl
  | cons c cs ih =>
    obtain ⟨part, parts, found⟩ :=
      List.exists_cons_of_ne_nil (List.splitOnP_ne_nil (· == separator) cs)
    simp only [splitOn, ih, List.splitOn_eq_splitOnP, List.splitOnP_cons_eq_if_modifyHead,
      found, beq_iff_eq, List.modifyHead_cons]

/-- Parts without the separator are found again. -/
theorem splitOn_intercalate {separator : Char} {parts : List Text}
    (free : ∀ part ∈ parts, separator ∉ part) (some : parts ≠ []) :
    splitOn separator ([separator].intercalate parts) = parts := by
  rw [splitOn_eq]
  exact List.splitOn_intercalate separator free some

/-- Characters of joined parts. -/
theorem mem_intercalate {separator c : Char} {parts : List Text}
    (member : c ∈ [separator].intercalate parts) : c = separator ∨ ∃ part ∈ parts, c ∈ part := by
  induction parts with
  | nil => cases member
  | cons part parts ih =>
    by_cases last : parts = []
    · subst last
      exact .inr ⟨part, List.mem_singleton_self part, by simpa [List.intercalate] using member⟩
    · rw [List.intercalate_cons_of_ne_nil last, List.append_assoc, List.mem_append,
        List.singleton_append, List.mem_cons] at member
      obtain here | equal | later := member
      · exact .inr ⟨part, List.mem_cons_self, here⟩
      · exact .inl equal
      · exact (ih later).imp_right fun ⟨found, inside, holds⟩ =>
          ⟨found, List.mem_cons_of_mem part inside, holds⟩

/-- Parts with a separator after each are parts with separators between them, if an empty part
follows. -/
theorem flatMap_append_singleton (separator : Char) (parts : List Text) :
    parts.flatMap (· ++ [separator]) = [separator].intercalate (parts ++ [[]]) := by
  induction parts with
  | nil => rfl
  | cons part parts ih =>
    rw [List.flatMap_cons, ih, List.cons_append, List.intercalate_cons_of_ne_nil (by simp)]

end FunMips.Text
