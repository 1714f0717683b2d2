import LetterToSound.Text.Bytes

/-!
# Conditionals of a database

For a locale, every conditional of a database does or does not set the flag that its id numbers. A
flag that several conditionals number is set if one of them sets it.
-/

/-!
## Locales

A locale is a tag like `en-GB`. A tag covers another one if it is equal to it, or to the part of it
before a separator; upper and lower case of ASCII letters are the same.
-/

namespace LetterToSound.Locale

/-- The lower case of an ASCII letter; every other byte as it is. -/
def lower (b : UInt8) : UInt8 := if 0x41 ≤ b ∧ b ≤ 0x5A then b + 0x20 else b

/-- Whether a byte separates the parts of a tag. -/
def isSeparator (b : UInt8) : Bool := b == 0x2D || b == 0x5F

/-- The bytes of a tag with all letters in lower case. -/
def folded (tag : String) : Bytes := (Bytes.ofString tag).map lower

/-- Whether `pattern` is `locale` or names a parent of it. -/
def covers (pattern locale : String) : Bool :=
  match (folded pattern).isPrefixOf? (folded locale) with
  | none => false
  | some [] => true
  | some (b :: _) => isSeparator b

end LetterToSound.Locale

/-!
## Polarity

A conditional, and a guard that asks for one, is for the case where it holds or for the case where
it does not. In sources and in databases the two are written as a byte.
-/

namespace LetterToSound

inductive Polarity where
  /-- Where the condition holds, written `@`. -/
  | set
  /-- Where the condition does not hold, written `!`. -/
  | unset
deriving DecidableEq, Repr, Inhabited

namespace Polarity

def byte : Polarity → UInt8
  | set => 0x40
  | unset => 0x21

def ofByte? (b : UInt8) : Option Polarity :=
  if b = 0x40 then some set else if b = 0x21 then some unset else none

@[simp] theorem ofByte?_byte (p : Polarity) : ofByte? p.byte = some p := by
  cases p <;> rfl

theorem ofByte?_eq_some_iff {b : UInt8} {p : Polarity} : ofByte? b = some p ↔ b = p.byte := by
  constructor
  · intro h
    unfold ofByte? at h
    split at h
    · cases h; assumption
    · split at h
      · cases h; assumption
      · cases h
  · rintro rfl
    exact ofByte?_byte p

end Polarity

end LetterToSound

/-!
## Conditionals and flags
-/

namespace LetterToSound.Language

/-- A conditional of a database. -/
structure Condition where
  id : UInt8
  polarity : Polarity
  locale : String
deriving DecidableEq, Repr

namespace Condition

/-- Whether a conditional sets its flag for a locale. -/
def holds (c : Condition) (locale : String) : Bool :=
  match c.polarity with
  | .set => Locale.covers c.locale locale
  | .unset => !Locale.covers c.locale locale

/-- One more than the greatest id; zero without conditionals. -/
def flagCount (cs : List Condition) : Nat := (cs.map fun c => c.id.toNat + 1).foldl max 0

/-- The flags by number that conditionals set for a locale. -/
def flags (cs : List Condition) (locale : String) : Array Bool :=
  (cs.filter (·.holds locale)).foldl (fun flags c => flags.setIfInBounds c.id.toNat true)
    (Array.replicate (flagCount cs) false)

/-- The flag of a number; one that no conditional has is not set. -/
def isSet (flags : Array Bool) (id : UInt8) : Bool := (flags[id.toNat]?).getD false

end Condition

end LetterToSound.Language
