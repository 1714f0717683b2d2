import LetterToSound.Phoneme.Feature

/-!
# Explicit feature text

Every phoneme is written as its features between braces: `{vcd,alv,stp}`. A phoneme that
names no kind is a consonant if it has a place or a manner, and else a vowel if it has a height or
a backness.
-/

namespace LetterToSound.Explicit

/-- The byte that opens a group of features. -/
def openGroup : UInt8 := 0x7B

/-- The byte that closes a group of features. -/
def closeGroup : UInt8 := 0x7D

/-- Whether a byte may stand between phonemes. -/
def isBlank (b : UInt8) : Bool := b == 0x20 || b == 0x09

/-- Gives a phoneme without a kind the kind that its other features imply. -/
def inferKind (p : Phoneme) : Phoneme :=
  if p.get Family.kind.mask != 0 then p
  else if p.get (Family.place.mask ||| Family.manner.mask) != 0 then
    p.set Feature.consonant.value Family.kind.mask
  else if p.get (Family.height.mask ||| Family.backness.mask) != 0 then
    p.set Feature.vowel.value Family.kind.mask
  else p

/-- The phoneme of the features between two braces. -/
def group (inside : Bytes) : Except PhonemeError Phoneme :=
  (FeatureSpec.parse inside).map fun spec => inferKind ⟨spec.value⟩

/-- Cuts behind the first closing brace: what stands before it, and what follows it. -/
def splitGroup? (bytes : Bytes) : Option (Bytes × Bytes) :=
  match bytes.dropWhile (· != closeGroup) with
  | [] => none
  | _ :: tail => some (bytes.takeWhile (· != closeGroup), tail)

theorem length_splitGroup?_lt {bytes inside tail : Bytes}
    (h : splitGroup? bytes = some (inside, tail)) : tail.length < bytes.length := by
  unfold splitGroup? at h
  split at h
  · simp at h
  · rename_i b rest hdrop
    simp only [Option.some.injEq, Prod.mk.injEq] at h
    have hle := (List.dropWhile_suffix (l := bytes) (· != closeGroup)).length_le
    rw [hdrop, List.length_cons, h.2] at hle
    omega

/-- Reads the rest of a text of `size` bytes, the phonemes read before in reverse order. -/
def parseRest (size : Nat) (read : List Phoneme) : Bytes → Except PhonemeError (List Phoneme)
  | [] => .ok read.reverse
  | b :: rest =>
    if isBlank b then parseRest size read rest
    else if b = openGroup then
      match _h : splitGroup? rest with
      | none => .error .unterminatedGroup
      | some (inside, tail) =>
        match group inside with
        | .error e => .error e
        | .ok p => parseRest size (p :: read) tail
    else .error (.unknownSymbol (size - (rest.length + 1)))
termination_by rest => rest.length
decreasing_by
  · exact Nat.lt_succ_self _
  · exact Nat.lt_succ_of_lt (length_splitGroup?_lt _h)

/-- Reads explicit feature text. -/
def parse (text : Bytes) : Except PhonemeError (List Phoneme) := parseRest text.length [] text

/-- The features of one phoneme between braces. -/
def writeOne (p : Phoneme) : String :=
  "\x7b" ++ ",".intercalate ((Feature.table.filter (·.isOf p)).map Feature.name) ++ "\x7d"

/-- Writes explicit feature text. -/
def write (phonemes : List Phoneme) : String := String.join (phonemes.map writeOne)

end LetterToSound.Explicit
