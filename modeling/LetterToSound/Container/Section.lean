import LetterToSound.Text.Bytes

/-!
# Sections of a database

A database is a header and then sections. A section starts with a tag; the strings that it refers
to follow it as a section of their own. All integers are little-endian, and the sizes here are those
of the fixed parts of sections.
-/

namespace LetterToSound

/-- What a section holds. -/
inductive SectionTag where
  | strings | conditionals | classDef | letterToPhoneme | spelling | dictionary
  | durations | units | phonemeUnits | pitch
deriving DecidableEq, Repr

namespace SectionTag

def name : SectionTag → String
  | strings => "STR"
  | conditionals => "CND"
  | classDef => "CLS"
  | letterToPhoneme => "L2P"
  | spelling => "LRR"
  | dictionary => "DIC"
  | durations => "DUR"
  | units => "PUT"
  | phonemeUnits => "PHO"
  | pitch => "PTC"

/-- The three bytes at the start of a section. -/
def bytes (tag : SectionTag) : Bytes := Bytes.ofString tag.name

def all : List SectionTag :=
  [strings, conditionals, classDef, letterToPhoneme, spelling, dictionary, durations, units,
    phonemeUnits, pitch]

/-- The tag that bytes spell. -/
def ofBytes? (b : Bytes) : Option SectionTag := all.find? (·.bytes = b)

@[simp] theorem ofBytes?_bytes (tag : SectionTag) : ofBytes? tag.bytes = some tag := by
  cases tag <;> decide

@[simp] theorem length_bytes (tag : SectionTag) : tag.bytes.length = 3 := by
  cases tag <;> decide

end SectionTag

namespace Layout

/-- The bytes that start a language database. -/
def languageMagic : Bytes := Bytes.ofString "LANGDB"

/-- The bytes that start a voice database. -/
def voiceMagic : Bytes := Bytes.ofString "VOICEDB"

/-- Written behind the magic; read in the other byte order it is another number. -/
def byteOrderWitness : UInt16 := 0x3031

/-- A reference to a pooled string is its offset in the database. -/
def stringReferenceSize : Nat := 4

/-- The tag of a string table and the offset behind its last string. -/
def stringTableHeaderSize : Nat := 7

/-- Magic, witness, locale and alphabet. -/
def languageHeaderSize : Nat := 6 + 2 + 2 * stringReferenceSize

/-- Magic, witness, five texts, gender, volume, frequency, channels and sample format. -/
def voiceHeaderSize : Nat := 7 + 2 + 5 * stringReferenceSize + 1 + 2 + 2 + 1 + stringReferenceSize

/-- Tag and entry count. -/
def headerSize : Nat := 5

/-- Tag, entry count and the byte that names the class or group. -/
def groupHeaderSize : Nat := 6

/-- Id, polarity, predicate and value. -/
def conditionalSize : Nat := 3 + stringReferenceSize

def classMemberSize : Nat := stringReferenceSize

/-- Pattern and replacement. -/
def ruleSize : Nat := 2 * stringReferenceSize

/-- Word and transcription. -/
def dictionaryEntrySize : Nat := 2 * stringReferenceSize

/-- Base, step and deviation. -/
def pitchSize : Nat := 12

/-- Two phonemes, condition and its mask, mean and deviation. -/
def durationSize : Nat := 4 * 8 + 2 + 2

/-- Name and start. -/
def unitSize : Nat := stringReferenceSize + 1

/-- Two phonemes, first unit and unit count. -/
def phonemeUnitsSize : Nat := 8 + 8 + 2 + 1

/-- The predicate of a conditional on the locale, the only one there is. -/
def localePredicate : UInt8 := 1

/-- The size of a section with entries of equal size, as a 32-bit number. -/
def sectionSize (header entries entrySize : Nat) : UInt32 :=
  UInt32.ofNat (header + entries * entrySize)

end Layout

end LetterToSound
