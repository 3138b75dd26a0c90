/-!
# Text measured in bytes

Source text is a list of characters. Offsets into it count the bytes of its UTF-8 form, so
an offset can fall inside a character or past the end; cutting there has no answer.
-/

namespace FunMips

/-- Characters of a source, in order. -/
abbrev Text := List Char

namespace Text

/-- Number of bytes of the UTF-8 form. -/
def byteSize : Text → Nat
  | [] => 0
  | c :: cs => c.utf8Size + byteSize cs

/-- The UTF-8 form. -/
def bytes (text : Text) : List UInt8 := text.flatMap String.utf8EncodeChar

/-- The text before and after a byte offset, unless the offset lies inside a character or
past the end. -/
def splitAt? : Text → Nat → Option (Text × Text)
  | [], offset => if offset = 0 then some ([], []) else none
  | c :: cs, offset =>
    if offset = 0 then some ([], c :: cs)
    else if c.utf8Size ≤ offset then
      (splitAt? cs (offset - c.utf8Size)).map fun (before, after) => (c :: before, after)
    else none

/-- The text after a byte offset, unless the offset lies inside a character or past the end. -/
def drop? : Text → Nat → Option Text
  | [], offset => if offset = 0 then some [] else none
  | c :: cs, offset =>
    if offset = 0 then some (c :: cs)
    else if c.utf8Size ≤ offset then drop? cs (offset - c.utf8Size)
    else none

/-- The `length` bytes from `start` on, unless one of the two ends lies inside a character or
past the end. -/
def slice? (text : Text) (start length : Nat) : Option Text := do
  let after ← text.drop? start
  let (part, _) ← splitAt? after length
  return part

/-- The parts between the separators: one more than there are separators. -/
def splitOn (separator : Char) : Text → List Text
  | [] => [[]]
  | c :: cs =>
    if c = separator then [] :: splitOn separator cs
    else
      match splitOn separator cs with
      | [] => [[c]]
      | part :: parts => (c :: part) :: parts

@[simp] theorem byteSize_nil : byteSize [] = 0 := rfl

@[simp] theorem byteSize_cons (c : Char) (cs : Text) :
    byteSize (c :: cs) = c.utf8Size + byteSize cs := rfl

@[simp] theorem byteSize_append (s t : Text) : byteSize (s ++ t) = byteSize s + byteSize t := by
  induction s with
  | nil => simp
  | cons c cs ih => simp [ih, Nat.add_assoc]

theorem byteSize_pos {text : Text} (h : 0 < text.length) : 0 < text.byteSize := by
  cases text with
  | nil => simp at h
  | cons c cs => exact Nat.add_pos_left c.utf8Size_pos _

/-- Every text can be cut at the size of a leading part. -/
theorem splitAt?_append (s t : Text) : splitAt? (s ++ t) (byteSize s) = some (s, t) := by
  induction s with
  | nil => cases t <;> simp [splitAt?]
  | cons c cs ih =>
    have positive := c.utf8Size_pos
    simp only [List.cons_append, splitAt?, byteSize_cons]
    rw [if_neg (by omega), if_pos (by omega), Nat.add_sub_cancel_left, ih]
    rfl

/-- A cut loses nothing and falls at the size of what stands before it. -/
theorem eq_of_splitAt? {text before after : Text} {offset : Nat}
    (h : splitAt? text offset = some (before, after)) :
    text = before ++ after ∧ byteSize before = offset := by
  induction text generalizing before offset with
  | nil =>
    simp only [splitAt?] at h
    split at h
    · simp_all
    · simp at h
  | cons c cs ih =>
    simp only [splitAt?] at h
    split at h
    · simp_all
    · split at h
      · obtain ⟨⟨first, second⟩, found, equal⟩ := Option.map_eq_some_iff.1 h
        simp only [Prod.mk.injEq] at equal
        obtain ⟨rfl, rfl⟩ := equal
        obtain ⟨rfl, size⟩ := ih found
        exact ⟨rfl, by simp only [byteSize_cons]; omega⟩
      · simp at h

/-- Dropping is the second half of a cut. -/
theorem drop?_eq_map_splitAt? (text : Text) (offset : Nat) :
    drop? text offset = (splitAt? text offset).map Prod.snd := by
  induction text generalizing offset with
  | nil => by_cases h : offset = 0 <;> simp [drop?, splitAt?, h]
  | cons c cs ih =>
    simp only [drop?, splitAt?]
    split
    · rfl
    · split
      · rw [ih, Option.map_map]
        rfl
      · rfl

end Text

end FunMips
