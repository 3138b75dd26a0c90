import FunMips.Token.Scan
import FunMips.Proofs.Text
import FunMips.Proofs.Token.Lexemes

/-!
# Classes of bytes

Tokens are told apart by characters that take one byte. So every byte of a character belongs to the
same classes as the character (`AsciiOnly.byte_eq`), and a run of bytes of a class has the bytes of
a run of characters (`AsciiOnly.takeWhile_bytes`).
-/

namespace FunMips

/-- The characters of several bytes are not told apart: each of them gives `other`. -/
def AsciiOnly {α : Type} (f : Char → α) (other : α) : Prop :=
  ∀ c : Char, 0x80 ≤ c.toNat → f c = other

theorem asciiOnly_punctuation? : AsciiOnly punctuation? none := by
  intro c large
  have small : ∀ entry ∈ marks, entry.1.toNat < 0x80 := by decide
  rw [punctuation?_eq_none_iff]
  intro kind listed
  exact absurd large (Nat.not_le.2 (small (c, kind) listed))

theorem asciiOnly_isBlank : AsciiOnly isBlank false := by
  intro c large
  have small : [' ', '\t', '\n', '\r', '\x0b', '\x0c'].all (·.toNat < 0x80) := by decide
  by_contra blank
  have listed := isBlank_iff_mem.1 (by simpa using blank)
  have below := List.all_eq_true.1 small c listed
  exact absurd large (Nat.not_le.2 (by simpa using below))

theorem asciiOnly_isWordChar : AsciiOnly isWordChar false := by
  intro c large
  have classes : isWordChar c =
      (decide ('A'.val ≤ c.val ∧ c.val ≤ 'Z'.val) ||
        (decide ('a'.val ≤ c.val) && decide (c.val ≤ 'z'.val)) ||
        (decide ('0'.val ≤ c.val) && decide (c.val ≤ '9'.val)) || c == '_') := rfl
  by_contra word
  simp only [classes, Bool.not_eq_false, Bool.or_eq_true, Bool.and_eq_true, decide_eq_true_eq,
    UInt32.le_iff_toNat_le, beq_iff_eq] at word
  have code : c.val.toNat = c.toNat := rfl
  have lastUpper : 'Z'.val.toNat = 90 := rfl
  have lastLower : 'z'.val.toNat = 122 := rfl
  have lastDigit : '9'.val.toNat = 57 := rfl
  rcases word with ((upper | lower) | digit) | rfl
  · omega
  · omega
  · omega
  · exact absurd large (by decide)

theorem asciiOnly_isDigit : AsciiOnly Char.isDigit false := fun c large =>
  not_isDigit_of_not_isWordChar (asciiOnly_isWordChar c large)

theorem toNat_ofUInt8 (byte : UInt8) : (Char.ofUInt8 byte).toNat = byte.toNat :=
  UInt8.toNat_toUInt32 byte

theorem ofUInt8_injective : Function.Injective Char.ofUInt8 := by
  intro first second same
  apply UInt8.toNat_inj.1
  rw [← toNat_ofUInt8, ← toNat_ofUInt8, same]

/-- A byte of a character is the character itself, or else belongs to one of several bytes and
says so. -/
theorem ofUInt8_of_mem {c : Char} {byte : UInt8} (member : byte ∈ String.utf8EncodeChar c) :
    Char.ofUInt8 byte = c ∨ 0x80 ≤ c.toNat ∧ 0x80 ≤ (Char.ofUInt8 byte).toNat := by
  have code : c.val.toNat = c.toNat := rfl
  rw [toNat_ofUInt8]
  unfold String.utf8EncodeChar at member
  dsimp only at member
  split at member
  · next small =>
    obtain rfl := List.mem_singleton.1 member
    refine .inl (Char.toNat_inj.1 ?_)
    rw [toNat_ofUInt8, UInt8.toNat_ofNat_of_lt' (Nat.lt_of_le_of_lt small (by decide)), code]
  · next large =>
    -- every byte of a longer form has its highest bit set
    refine .inr ⟨by omega, ?_⟩
    have high {n : Nat} (lead : n % 256 = n) (low : 0x80 ≤ n) : 0x80 ≤ (UInt8.ofNat n).toNat := by
      rw [UInt8.toNat_ofNat']
      omega
    split at member
    · simp only [List.mem_cons, List.not_mem_nil, or_false] at member
      rcases member with rfl | rfl <;> exact high (by omega) (by omega)
    · split at member
      · simp only [List.mem_cons, List.not_mem_nil, or_false] at member
        rcases member with rfl | rfl | rfl <;> exact high (by omega) (by omega)
      · simp only [List.mem_cons, List.not_mem_nil, or_false] at member
        rcases member with rfl | rfl | rfl | rfl <;> exact high (by omega) (by omega)

namespace AsciiOnly

variable {α : Type} {f : Char → α} {other : α} {p : Char → Bool}

/-- Every byte of a character is classed like the character. -/
theorem byte_eq (ascii : AsciiOnly f other) {c : Char} {byte : UInt8}
    (member : byte ∈ String.utf8EncodeChar c) : f (Char.ofUInt8 byte) = f c := by
  rcases ofUInt8_of_mem member with same | ⟨large, high⟩
  · rw [same]
  · rw [ascii c large, ascii _ high]

/-- The bytes of a class in front are those of the characters of the class in front. -/
theorem takeWhile_bytes (ascii : AsciiOnly p false) (text : Text) :
    text.bytes.takeWhile (fun byte => p (Char.ofUInt8 byte)) =
      Text.bytes (text.takeWhile p) := by
  induction text with
  | nil => rfl
  | cons c cs ih =>
    by_cases inClass : p c
    · have all : ∀ byte ∈ String.utf8EncodeChar c, p (Char.ofUInt8 byte) = true := by
        intro byte member
        rw [ascii.byte_eq member, inClass]
      rw [Text.bytes_cons, List.takeWhile_append_of_pos all, ih,
        List.takeWhile_cons_of_pos inClass, Text.bytes_cons]
    -- the run ends with the first byte of a character that is not in the class
    · obtain ⟨byte, bytes, encoded⟩ :=
        List.exists_cons_of_ne_nil (String.utf8EncodeChar_ne_nil (c := c))
      have first : ¬ p (Char.ofUInt8 byte) = true := by
        rwa [ascii.byte_eq (c := c) (by simp [encoded])]
      rw [Text.bytes_cons, encoded, List.cons_append,
        List.takeWhile_cons_of_neg (p := fun byte => p (Char.ofUInt8 byte)) first,
        List.takeWhile_cons_of_neg inClass]
      rfl

theorem runEnd_append (ascii : AsciiOnly p false) (before rest : Text) :
    runEnd (before ++ rest).bytes before.byteSize p =
      before.byteSize + Text.byteSize (rest.takeWhile p) := by
  rw [runEnd, Text.bytes_append, List.drop_left' (Text.length_bytes before),
    ascii.takeWhile_bytes, Text.length_bytes]

/-- A run of characters that ends where it should is a run of their bytes. -/
theorem runEnd_run (ascii : AsciiOnly p false) (before : Text) {run rest : Text}
    (all : ∀ c ∈ run, p c) (ends : ∀ c ∈ rest.head?, p c = false) :
    runEnd (before ++ (run ++ rest)).bytes before.byteSize p =
      before.byteSize + run.byteSize := by
  rw [ascii.runEnd_append, takeWhile_run all ends]

end AsciiOnly

theorem runEnd_of_not {bytes : List UInt8} {start : Nat} {byte : UInt8} {p : Char → Bool}
    (found : bytes[start]? = some byte) (notIn : p (Char.ofUInt8 byte) = false) :
    runEnd bytes start p = start := by
  obtain ⟨inside, rfl⟩ := List.getElem?_eq_some_iff.1 found
  rw [runEnd, List.drop_eq_getElem_cons inside]
  simp [notIn]

end FunMips
