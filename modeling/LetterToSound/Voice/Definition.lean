import LetterToSound.Number.Single
import LetterToSound.Phoneme.Alphabet

/-!
# Voice definitions

A voice source is a sequence of items. Of the items that set a value the last one counts; phonemes
are kept in order. Phonemes are written as features until a source names another alphabet.
-/

namespace LetterToSound

inductive Gender where
  | male
  | female
  | unspecified
deriving DecidableEq, Repr, Inhabited

namespace Gender

/-- The byte for a gender in a database. -/
def byte : Gender → UInt8
  | male => 0x4D
  | female => 0x46
  | unspecified => 0

def ofByte? (b : UInt8) : Option Gender :=
  if b = 0x4D then some male
  else if b = 0x46 then some female
  else if b = 0 then some unspecified
  else none

@[simp] theorem ofByte?_byte (g : Gender) : ofByte? g.byte = some g := by
  cases g <;> rfl

end Gender

/-!
## Pitch

A voice says a base and a step. Its five levels are the base and one to four steps above it, all
with the same deviation.
-/

/-- A pitch in Hz with its standard deviation. -/
structure Pitch where
  hz : Single
  deviation : Single
deriving DecidableEq, Repr

/-- The pitch of a voice in Hz. -/
structure PitchSettings where
  base : Single
  step : Single
  deviation : Single
deriving DecidableEq, Repr

namespace PitchSettings

/-- The level that is `n` steps above the base. -/
def level (p : PitchSettings) (n : Nat) : Pitch :=
  ⟨p.base + Single.ofNat n * p.step, p.deviation⟩

def bottom (p : PitchSettings) : Pitch := p.level 0
def low (p : PitchSettings) : Pitch := p.level 1
def mid (p : PitchSettings) : Pitch := p.level 2
def high (p : PitchSettings) : Pitch := p.level 3
def top (p : PitchSettings) : Pitch := p.level 4

end PitchSettings

end LetterToSound

/-!
## Items and definitions
-/

namespace LetterToSound.Voice

/-- How long a phoneme lasts, in milliseconds, under a condition on its features. -/
structure DurationEntry where
  mean : UInt16
  deviation : UInt16
  condition : FeatureSpec
deriving DecidableEq, Repr

/-- A recorded unit, and the percentage of it where playing starts. -/
structure UnitEntry where
  name : Bytes
  start : UInt8
deriving DecidableEq, Repr

/-- A phoneme, or a pair of phonemes, with its durations and units. The second phoneme of a single
one is unspecified. -/
structure PhonemeEntry where
  first : Phoneme
  second : Phoneme
  durations : List DurationEntry
  units : List UnitEntry
deriving DecidableEq, Repr

structure Definition where
  id : Bytes := []
  name : Bytes := []
  synthesizer : Bytes := []
  author : Bytes := []
  alphabet : Bytes := []
  gender : Gender := .unspecified
  volumeScale : Single := Single.one
  frequency : UInt16 := 0
  channels : UInt8 := 0
  sampleFormat : Bytes := []
  pitch : Option PitchSettings := none
  phonemes : List PhonemeEntry := []
deriving DecidableEq, Repr, Inhabited

/-- A complete part of a voice source. -/
inductive Item where
  | id (value : Bytes)
  | name (value : Bytes)
  | synthesizer (value : Bytes)
  | author (value : Bytes)
  | alphabet (name : Bytes)
  | gender (value : Gender)
  | volumeScale (value : Single)
  | frequency (value : UInt16)
  | channels (value : UInt8)
  | sampleFormat (value : Bytes)
  | pitch (value : PitchSettings)
  | phoneme (entry : PhonemeEntry)
deriving DecidableEq, Repr

def Item.phoneme? : Item → Option PhonemeEntry
  | phoneme entry => some entry
  | _ => none

/-- The alphabet of phonemes for which a source names none. -/
def defaultAlphabet : Alphabet := .features

namespace Definition

/-- Sets what an item says about the voice as a whole. -/
def set (d : Definition) : Item → Definition
  | .id value => { d with id := value }
  | .name value => { d with name := value }
  | .synthesizer value => { d with synthesizer := value }
  | .author value => { d with author := value }
  | .alphabet name => { d with alphabet := name }
  | .gender value => { d with gender := value }
  | .volumeScale value => { d with volumeScale := value }
  | .frequency value => { d with frequency := value }
  | .channels value => { d with channels := value }
  | .sampleFormat value => { d with sampleFormat := value }
  | .pitch value => { d with pitch := some value }
  | .phoneme _ =>
    if d.alphabet = [] then { d with alphabet := Bytes.ofString defaultAlphabet.name } else d

/-- What items define together. -/
def ofItems (items : List Item) : Definition :=
  { items.foldl set {} with phonemes := items.filterMap Item.phoneme? }

end Definition

end LetterToSound.Voice
