/-!
# Byte strings

Sources, patterns, words and transcriptions are strings of bytes that need not be UTF-8. They are
kept as lists, so that a scan is a recursion on what is left to read. Numbers are written to them, and
messages quote them as text.
-/

namespace LetterToSound

/-- A string of bytes, in reading order. -/
abbrev Bytes := List UInt8

namespace Bytes

/-- The UTF-8 bytes of a text. -/
def ofString (s : String) : Bytes := s.toUTF8.data.toList

/-- The text that these bytes encode; none if they are not UTF-8. -/
def toString? (b : Bytes) : Option String := String.fromUTF8? ⟨b.toArray⟩

@[simp] theorem toString?_ofString (s : String) : toString? (ofString s) = some s := by
  simp only [toString?, ofString, String.toUTF8_eq_toByteArray, Array.toArray_toList,
    String.fromUTF8?, dif_pos s.isValidUTF8]
  rfl

theorem ofString_append (s t : String) : ofString (s ++ t) = ofString s ++ ofString t := by
  simp [ofString]

end Bytes

end LetterToSound

/-!
## Little-endian words

A number of `width` bytes is written with its least significant byte first.
-/

namespace LetterToSound.LittleEndian

/-- The `width` low bytes of a number, least significant first. -/
def encode : Nat → Nat → Bytes
  | 0, _ => []
  | width + 1, n => UInt8.ofNat n :: encode width (n / 256)

/-- The number that bytes stand for, least significant first. -/
def decode (bytes : Bytes) : Nat := bytes.foldr (fun b n => b.toNat + 256 * n) 0

@[simp] theorem length_encode (width n : Nat) : (encode width n).length = width := by
  induction width generalizing n with
  | zero => rfl
  | succ width ih => simp [encode, ih]

end LetterToSound.LittleEndian

/-!
## Reading bytes that may not be UTF-8

A message quotes source bytes as text. Every longest run of bytes that starts like a character but
is not one stands for a single replacement character, and reading goes on behind it.
-/

namespace LetterToSound.Utf8

/-- What a lead byte announces. -/
structure Lead where
  /-- The bits of the character that the lead byte holds. -/
  payload : Nat
  /-- How many bytes follow. -/
  following : Nat
  /-- The least value of the byte that comes next. -/
  low : UInt8
  /-- The greatest value of the byte that comes next. -/
  high : UInt8

/-- The lead bytes of well-formed UTF-8. The narrower ranges after `E0`, `ED`, `F0` and `F4` leave
out overlong forms, surrogates and values beyond the last character. -/
def lead? (b : UInt8) : Option Lead :=
  let n := b.toNat
  if n < 0x80 then some ⟨n, 0, 0x80, 0xBF⟩
  else if n < 0xC2 then none
  else if n < 0xE0 then some ⟨n - 0xC0, 1, 0x80, 0xBF⟩
  else if n = 0xE0 then some ⟨0, 2, 0xA0, 0xBF⟩
  else if n = 0xED then some ⟨0xD, 2, 0x80, 0x9F⟩
  else if n < 0xF0 then some ⟨n - 0xE0, 2, 0x80, 0xBF⟩
  else if n = 0xF0 then some ⟨0, 3, 0x90, 0xBF⟩
  else if n < 0xF4 then some ⟨n - 0xF0, 3, 0x80, 0xBF⟩
  else if n = 0xF4 then some ⟨4, 3, 0x80, 0x8F⟩
  else none

/-- Reads `following` continuation bytes onto `value`, the next of them between `low` and `high`.
Without a value the bytes read so far are no character. -/
def readTail : Nat → UInt8 → UInt8 → Nat → Bytes → Option Nat × Bytes
  | 0, _, _, value, bytes => (some value, bytes)
  | _ + 1, _, _, _, [] => (none, [])
  | following + 1, low, high, value, b :: bytes =>
    if low ≤ b ∧ b ≤ high then
      readTail following 0x80 0xBF (value * 64 + b.toNat % 64) bytes
    else (none, b :: bytes)

theorem length_readTail_le (following : Nat) (low high : UInt8) (value : Nat) (bytes : Bytes) :
    (readTail following low high value bytes).2.length ≤ bytes.length := by
  fun_induction readTail following low high value bytes with
  | case1 => exact Nat.le_refl _
  | case2 => exact Nat.le_refl _
  | case3 following low high value b bytes h ih => exact Nat.le_succ_of_le ih
  | case4 => exact Nat.le_refl _

/-- The replacement character. -/
def replacement : Char := Char.ofNat 0xFFFD

/-- The character at the head of `b :: bytes`, or the replacement character, and what follows it. -/
def next (b : UInt8) (bytes : Bytes) : Char × Bytes :=
  match lead? b with
  | none => (replacement, bytes)
  | some lead =>
    match readTail lead.following lead.low lead.high lead.payload bytes with
    | (some value, rest) => (Char.ofNat value, rest)
    | (none, rest) => (replacement, rest)

theorem length_next_le (b : UInt8) (bytes : Bytes) : (next b bytes).2.length ≤ bytes.length := by
  unfold next
  split
  · exact Nat.le_refl _
  · rename_i lead _
    have h := length_readTail_le lead.following lead.low lead.high lead.payload bytes
    split <;> simp_all

/-- Reads characters to the end, those read before in reverse order. -/
def lossyChars (read : List Char) : Bytes → List Char
  | [] => read.reverse
  | b :: bytes => lossyChars ((next b bytes).1 :: read) (next b bytes).2
termination_by bytes => bytes.length
decreasing_by exact Nat.lt_succ_of_le (length_next_le b bytes)

/-- The text of `bytes`, with one replacement character for each part that is not UTF-8. -/
def lossy (bytes : Bytes) : String := String.ofList (lossyChars [] bytes)

end LetterToSound.Utf8
