import LetterToSound.Text.Bytes
import LetterToSound.Text.Pieces

/-!
# Phonemes and features

A phoneme packs its articulatory features into 64 bits. Each family of features has bits of its
own, and the family's mask reads, replaces and compares that family alone.
-/

namespace LetterToSound

/-- A bundle of articulatory features. -/
structure Phoneme where
  bits : UInt64
deriving DecidableEq, Repr, Inhabited

namespace Phoneme

/-- The phoneme without any feature. -/
def unspecified : Phoneme := ⟨0⟩

/-- The features under a mask. -/
def get (p : Phoneme) (mask : UInt64) : UInt64 := p.bits &&& mask

/-- Replaces the features under a mask. -/
def set (p : Phoneme) (value mask : UInt64) : Phoneme :=
  ⟨(p.bits &&& ~~~mask) ||| (value &&& mask)⟩

/-- Whether two phonemes have the same features under a mask. -/
def agrees (p q : Phoneme) (mask : UInt64) : Bool := p.get mask == q.get mask

def isUnspecified (p : Phoneme) : Bool := p.bits == 0

@[simp] theorem get_set (p : Phoneme) (value mask : UInt64) :
    (p.set value mask).get mask = value &&& mask := by
  apply UInt64.eq_of_toBitVec_eq
  simp only [get, set, UInt64.toBitVec_and, UInt64.toBitVec_or, UInt64.toBitVec_not]
  ext i hi
  simp
  grind

theorem get_set_of_disjoint (p : Phoneme) (value : UInt64) {mask other : UInt64}
    (h : mask &&& other = 0) : (p.set value mask).get other = p.get other := by
  have hbit (i : Nat) : mask.toBitVec.getLsbD i = true → other.toBitVec.getLsbD i = false := by
    have := congrArg (fun m : UInt64 => m.toBitVec.getLsbD i) h
    simpa using this
  apply UInt64.eq_of_toBitVec_eq
  simp only [get, set, UInt64.toBitVec_and, UInt64.toBitVec_or, UInt64.toBitVec_not]
  ext i hi
  have := hbit i
  simp only [BitVec.getLsbD_eq_getElem hi] at this
  simp
  grind

end Phoneme

/-- What can be wrong with phoneme text. -/
inductive PhonemeError where
  /-- No symbol of the alphabet starts at this byte. -/
  | unknownSymbol (offset : Nat)
  | unknownFeature (name : String)
  /-- The list gives two values to one family. -/
  | conflictingFeatures (list : String)
  | unterminatedGroup
deriving DecidableEq, Repr

namespace PhonemeError

def message : PhonemeError → String
  | unknownSymbol offset => s!"unknown phoneme symbol at byte {offset}"
  | unknownFeature name => s!"unknown phoneme feature '{name}'"
  | conflictingFeatures list => s!"conflicting phoneme features in '{list}'"
  | unterminatedGroup => "unterminated feature group"

end PhonemeError

/-!
## Features

The families of articulatory features, the table of named features, and lists of names. A list
stands for a value under a mask: a phoneme has every named feature when its bits under the mask are
the value.
-/

/-- A family holds features that exclude each other. -/
inductive Family where
  | kind | voicing | place | manner | height | backness | rounding | aspiration | length | stress
deriving DecidableEq, Repr

namespace Family

/-- The bits of a family. -/
def mask : Family → UInt64
  | kind => 0x0000000F
  | voicing => 0x00000030
  | place => 0x00000F00
  | manner => 0x0000F000
  | height => 0x00070000
  | backness => 0x00300000
  | rounding => 0x00C00000
  | aspiration => 0x01000000
  | length => 0x06000000
  | stress => 0x18000000

theorem mask_and_mask {f g : Family} (h : f ≠ g) : f.mask &&& g.mask = 0 := by
  revert h
  cases f <;> cases g <;> decide

end Family

/-- A named value of a family. -/
structure Feature where
  name : String
  family : Family
  value : UInt64
deriving DecidableEq, Repr

namespace Feature

def consonant : Feature := ⟨"con", .kind, 0x1⟩
def vowel : Feature := ⟨"vwl", .kind, 0x2⟩
def syllableBreak : Feature := ⟨"sbr", .kind, 0x3⟩
def voiceless : Feature := ⟨"vls", .voicing, 0x10⟩
def voiced : Feature := ⟨"vcd", .voicing, 0x20⟩
def bilabial : Feature := ⟨"blb", .place, 0x100⟩
def labiodental : Feature := ⟨"lbd", .place, 0x200⟩
def dental : Feature := ⟨"dnt", .place, 0x300⟩
def alveolar : Feature := ⟨"alv", .place, 0x400⟩
def palatoAlveolar : Feature := ⟨"pla", .place, 0x500⟩
def retroflex : Feature := ⟨"rfx", .place, 0x600⟩
def palatal : Feature := ⟨"pal", .place, 0x700⟩
def velar : Feature := ⟨"vel", .place, 0x800⟩
def uvular : Feature := ⟨"uvl", .place, 0x900⟩
def pharyngeal : Feature := ⟨"phr", .place, 0xA00⟩
def glottal : Feature := ⟨"glt", .place, 0xB00⟩
def labioVelar : Feature := ⟨"lbv", .place, 0xC00⟩
def plosive : Feature := ⟨"stp", .manner, 0x1000⟩
def nasal : Feature := ⟨"nas", .manner, 0x2000⟩
def trill : Feature := ⟨"trl", .manner, 0x3000⟩
def flap : Feature := ⟨"flp", .manner, 0x4000⟩
def fricative : Feature := ⟨"frc", .manner, 0x5000⟩
def approximant : Feature := ⟨"apr", .manner, 0x6000⟩
def lateralApproximant : Feature := ⟨"lat", .manner, 0x7000⟩
def affricate : Feature := ⟨"afr", .manner, 0x8000⟩
def high : Feature := ⟨"hgh", .height, 0x10000⟩
def semiHigh : Feature := ⟨"smh", .height, 0x20000⟩
def upperMid : Feature := ⟨"umd", .height, 0x30000⟩
def mid : Feature := ⟨"mid", .height, 0x40000⟩
def lowerMid : Feature := ⟨"lmd", .height, 0x50000⟩
def semiLow : Feature := ⟨"sml", .height, 0x60000⟩
def low : Feature := ⟨"low", .height, 0x70000⟩
def front : Feature := ⟨"fnt", .backness, 0x100000⟩
def central : Feature := ⟨"cnt", .backness, 0x200000⟩
def back : Feature := ⟨"bck", .backness, 0x300000⟩
def unrounded : Feature := ⟨"unr", .rounding, 0x400000⟩
def rounded : Feature := ⟨"rnd", .rounding, 0x800000⟩
def aspirated : Feature := ⟨"asp", .aspiration, 0x1000000⟩
def halfLong : Feature := ⟨"hlg", .length, 0x2000000⟩
def long : Feature := ⟨"lng", .length, 0x4000000⟩
def primaryStress : Feature := ⟨"st1", .stress, 0x8000000⟩
def secondaryStress : Feature := ⟨"st2", .stress, 0x10000000⟩

/-- Every feature, family by family. A phoneme's features are written in this order. -/
def table : List Feature :=
  [consonant, vowel, syllableBreak,
    voiceless, voiced,
    bilabial, labiodental, dental, alveolar, palatoAlveolar, retroflex, palatal, velar, uvular,
    pharyngeal, glottal, labioVelar,
    plosive, nasal, trill, flap, fricative, approximant, lateralApproximant, affricate,
    high, semiHigh, upperMid, mid, lowerMid, semiLow, low,
    front, central, back,
    unrounded, rounded,
    aspirated,
    halfLong, long,
    primaryStress, secondaryStress]

/-- The feature of a name. -/
def named? (name : String) : Option Feature := table.find? (·.name == name)

/-- Whether a phoneme has a feature. -/
def isOf (f : Feature) (p : Phoneme) : Bool := p.get f.family.mask == f.value

/-- A feature lies within its family. -/
theorem value_and_mask {f : Feature} (h : f ∈ table) : f.value &&& f.family.mask = f.value := by
  revert f
  decide

/-- No feature has the value that stands for none. -/
theorem value_ne_zero {f : Feature} (h : f ∈ table) : f.value ≠ 0 := by
  revert f
  decide

end Feature

/-- The features that a list of names asks for, as a value under a mask. -/
structure FeatureSpec where
  value : UInt64
  mask : UInt64
deriving DecidableEq, Repr, Inhabited

namespace FeatureSpec

/-- Asks for nothing, so every phoneme satisfies it. -/
def empty : FeatureSpec := ⟨0, 0⟩

/-- Whether a phoneme has all features asked for. -/
def holds (spec : FeatureSpec) (p : Phoneme) : Bool := p.get spec.mask == spec.value

/-- Whether another value is already asked for in the family of `f`. -/
def conflicts (spec : FeatureSpec) (f : Feature) : Bool :=
  spec.mask &&& f.family.mask != 0 && spec.value &&& f.family.mask != f.value

/-- Asks for one feature more. -/
def insert (spec : FeatureSpec) (f : Feature) : FeatureSpec :=
  ⟨spec.value ||| f.value, spec.mask ||| f.family.mask⟩

/-- The names in a list: what stands between commas, trimmed, without what is then empty. -/
def names (list : String) : List String :=
  ((Text.cutAt ',' list.toList).map fun piece => String.ofList (Text.trim piece)).filter (· ≠ "")

/-- Adds the feature of a name; `list` is what an error quotes. -/
def addName (list : String) (spec : FeatureSpec) (name : String) :
    Except PhonemeError FeatureSpec :=
  match Feature.named? name with
  | none => .error (.unknownFeature name)
  | some f => if spec.conflicts f then .error (.conflictingFeatures list) else .ok (spec.insert f)

/-- Reads a comma separated list of feature names. -/
def parse (bytes : Bytes) : Except PhonemeError FeatureSpec :=
  let list := Utf8.lossy bytes
  (names list).foldlM (addName list) empty

end FeatureSpec

end LetterToSound
