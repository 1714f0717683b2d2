import LetterToSound.Phoneme.Explicit

/-!
# X-SAMPA text, and the choice of an alphabet

A table of symbols with marks around them: a stress mark before a symbol, aspiration and length
behind it. A symbol that another one continues stands behind that one in the table, so the first
symbol that fits is the longest.
-/

namespace LetterToSound.XSampa

open Feature

/-- A symbol and the features it stands for. -/
structure Symbol where
  text : String
  bits : UInt64
deriving DecidableEq, Repr

/-- A symbol that stands for these features. -/
def symbol (text : String) (features : List Feature) : Symbol :=
  ⟨text, features.foldl (fun bits f => bits ||| f.value) 0⟩

/-- Every symbol, a longer one before those it starts with. -/
def symbols : List Symbol :=
  [symbol "tS" [consonant, voiceless, palatoAlveolar, affricate],
    symbol "dZ" [consonant, voiced, palatoAlveolar, affricate],
    symbol "r\\" [consonant, voiced, alveolar, approximant],
    symbol "p" [consonant, voiceless, bilabial, plosive],
    symbol "b" [consonant, voiced, bilabial, plosive],
    symbol "t" [consonant, voiceless, alveolar, plosive],
    symbol "d" [consonant, voiced, alveolar, plosive],
    symbol "k" [consonant, voiceless, velar, plosive],
    symbol "g" [consonant, voiced, velar, plosive],
    symbol "?" [consonant, voiceless, glottal, plosive],
    symbol "m" [consonant, voiced, bilabial, nasal],
    symbol "n" [consonant, voiced, alveolar, nasal],
    symbol "N" [consonant, voiced, velar, nasal],
    symbol "r" [consonant, voiced, alveolar, trill],
    symbol "4" [consonant, voiced, alveolar, flap],
    symbol "f" [consonant, voiceless, labiodental, fricative],
    symbol "v" [consonant, voiced, labiodental, fricative],
    symbol "T" [consonant, voiceless, dental, fricative],
    symbol "D" [consonant, voiced, dental, fricative],
    symbol "s" [consonant, voiceless, alveolar, fricative],
    symbol "z" [consonant, voiced, alveolar, fricative],
    symbol "S" [consonant, voiceless, palatoAlveolar, fricative],
    symbol "Z" [consonant, voiced, palatoAlveolar, fricative],
    symbol "x" [consonant, voiceless, velar, fricative],
    symbol "h" [consonant, voiceless, glottal, fricative],
    symbol "j" [consonant, voiced, palatal, approximant],
    symbol "w" [consonant, voiced, labioVelar, approximant],
    symbol "l" [consonant, voiced, alveolar, lateralApproximant],
    symbol "i" [vowel, high, front, unrounded],
    symbol "I" [vowel, semiHigh, front, unrounded],
    symbol "e" [vowel, upperMid, front, unrounded],
    symbol "E" [vowel, lowerMid, front, unrounded],
    symbol "\x7b" [vowel, semiLow, front, unrounded],
    symbol "a" [vowel, low, front, unrounded],
    symbol "A" [vowel, low, back, unrounded],
    symbol "Q" [vowel, low, back, rounded],
    symbol "O" [vowel, lowerMid, back, rounded],
    symbol "o" [vowel, upperMid, back, rounded],
    symbol "U" [vowel, semiHigh, back, rounded],
    symbol "u" [vowel, high, back, rounded],
    symbol "V" [vowel, lowerMid, back, unrounded],
    symbol "@" [vowel, mid, central, unrounded],
    symbol "3" [vowel, lowerMid, central, unrounded],
    symbol "." [syllableBreak]]

/-- The marks around a symbol: aspiration, length and stress. -/
def markMask : UInt64 :=
  Family.aspiration.mask ||| Family.length.mask ||| Family.stress.mask

/-- A mark behind a symbol. -/
inductive Modifier where
  | aspirated | halfLong | long
deriving DecidableEq, Repr

namespace Modifier

def feature : Modifier → Feature
  | aspirated => Feature.aspirated
  | halfLong => Feature.halfLong
  | long => Feature.long

def text : Modifier → String
  | aspirated => "_h"
  | halfLong => ":\\"
  | long => ":"

/-- Puts the mark on a phoneme; a later mark of the same family wins. -/
def apply (m : Modifier) (p : Phoneme) : Phoneme := p.set m.feature.value m.feature.family.mask

end Modifier

/-- The longest mark at the start of a text, and what follows it. -/
def modifier? : Bytes → Option (Modifier × Bytes)
  | 0x5F :: 0x68 :: rest => some (.aspirated, rest)
  | 0x3A :: 0x5C :: rest => some (.halfLong, rest)
  | 0x3A :: rest => some (.long, rest)
  | _ => none

theorem length_modifier?_lt {bytes rest : Bytes} {m : Modifier}
    (h : modifier? bytes = some (m, rest)) : rest.length < bytes.length := by
  unfold modifier? at h
  split at h <;> simp at h <;> obtain ⟨_, rfl⟩ := h <;> simp only [List.length_cons] <;> omega

/-- Puts all marks at the start of a text on a phoneme. -/
def modify (p : Phoneme) (bytes : Bytes) : Phoneme × Bytes :=
  match _h : modifier? bytes with
  | none => (p, bytes)
  | some (m, rest) => modify (m.apply p) rest
termination_by bytes.length
decreasing_by exact length_modifier?_lt _h

theorem length_modify_le (p : Phoneme) (bytes : Bytes) :
    (modify p bytes).2.length ≤ bytes.length := by
  fun_induction modify p bytes with
  | case1 => exact Nat.le_refl _
  | case2 p bytes m rest h ih =>
    have := length_modifier?_lt h
    omega

/-- The longest symbol at the start of a text, and what follows it. -/
def symbol? (bytes : Bytes) : Option (Symbol × Bytes) :=
  (symbols.find? fun s => (Bytes.ofString s.text).isPrefixOf bytes).map fun s =>
    (s, bytes.drop (Bytes.ofString s.text).length)

theorem text_ne_nil {s : Symbol} (h : s ∈ symbols) : Bytes.ofString s.text ≠ [] := by
  revert s
  decide +kernel

theorem length_symbol?_lt {bytes rest : Bytes} {s : Symbol} (h : symbol? bytes = some (s, rest)) :
    rest.length < bytes.length := by
  simp only [symbol?, Option.map_eq_some_iff, Prod.mk.injEq] at h
  obtain ⟨s', hfind, rfl, rfl⟩ := h
  have hpos : 0 < (Bytes.ofString s'.text).length :=
    List.length_pos_iff.2 (text_ne_nil (List.mem_of_find?_eq_some hfind))
  have hfits := List.find?_some hfind
  have hle := (List.isPrefixOf_iff_prefix.1 hfits).length_le
  rw [List.length_drop]
  omega

/-- The stress that a mark gives to the next symbol. -/
def stress? (b : UInt8) : Option UInt64 :=
  if b = 0x22 then some primaryStress.value
  else if b = 0x25 then some secondaryStress.value
  else none

/-- Reads the rest of a text of `size` bytes: the stress of the next symbol, and the phonemes read
before in reverse order. -/
def parseRest (size : Nat) (stress : UInt64) (read : List Phoneme) (bytes : Bytes) :
    Except PhonemeError (List Phoneme) :=
  match bytes with
  | [] => .ok read.reverse
  | b :: rest =>
    if Explicit.isBlank b then parseRest size stress read rest
    else match stress? b with
      | some mark => parseRest size mark read rest
      | none =>
        match h : symbol? (b :: rest) with
        | none => .error (.unknownSymbol (size - (rest.length + 1)))
        | some (s, behind) =>
          let modified := modify (Phoneme.set ⟨s.bits⟩ stress Family.stress.mask) behind
          parseRest size 0 (modified.1 :: read) modified.2
termination_by bytes.length
decreasing_by
  · exact Nat.lt_succ_self _
  · exact Nat.lt_succ_self _
  · have hlt := length_symbol?_lt h
    have hle := length_modify_le (Phoneme.set ⟨s.bits⟩ stress Family.stress.mask) behind
    omega

/-- Reads X-SAMPA text. -/
def parse (text : Bytes) : Except PhonemeError (List Phoneme) := parseRest text.length 0 [] text

/-- The stress mark of a phoneme. -/
def writeStress (p : Phoneme) : String :=
  if p.get Family.stress.mask = primaryStress.value then "\""
  else if p.get Family.stress.mask = secondaryStress.value then "%"
  else ""

/-- The symbol of a phoneme's features without the marks; where there is none, the features. -/
def writeBase (p : Phoneme) : String :=
  let base := p.get (~~~markMask)
  match symbols.find? (·.bits == base) with
  | some s => s.text
  | none => Explicit.write [⟨base⟩]

/-- The marks behind the symbol of a phoneme. -/
def writeModifiers (p : Phoneme) : String :=
  (if p.get Family.aspiration.mask = Feature.aspirated.value then Modifier.aspirated.text else "")
    ++ (if p.get Family.length.mask = Feature.long.value then Modifier.long.text
      else if p.get Family.length.mask = Feature.halfLong.value then Modifier.halfLong.text
      else "")

def writeOne (p : Phoneme) : String := writeStress p ++ writeBase p ++ writeModifiers p

/-- Writes X-SAMPA text. -/
def write (phonemes : List Phoneme) : String := String.join (phonemes.map writeOne)

end LetterToSound.XSampa

/-!
## Phoneme alphabets

The ways to write phonemes as text, chosen by name.
-/

namespace LetterToSound

/-- A way to write phonemes as text. -/
inductive Alphabet where
  | features
  | xsampa
deriving DecidableEq, Repr

namespace Alphabet

/-- The alphabet of a name; X-SAMPA has two. -/
def named? (name : String) : Option Alphabet :=
  if name = "features" then some features
  else if name = "xsampa" ∨ name = "x-sampa" then some xsampa
  else none

def name : Alphabet → String
  | features => "features"
  | xsampa => "xsampa"

@[simp] theorem named?_name (a : Alphabet) : named? a.name = some a := by
  cases a <;> decide

/-- Reads phonemes. -/
def parse : Alphabet → Bytes → Except PhonemeError (List Phoneme)
  | features => Explicit.parse
  | xsampa => XSampa.parse

/-- Writes phonemes. -/
def write : Alphabet → List Phoneme → String
  | features => Explicit.write
  | xsampa => XSampa.write

end Alphabet

end LetterToSound
