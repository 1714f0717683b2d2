import LetterToSound.Container.Cursor
import LetterToSound.Phoneme.Feature
import LetterToSound.Voice.Definition

/-!
# Loaded voice databases

Loading reads everything: the header, the pitch, the durations, the units, and the index of units.
Stress does not count when a duration or units are looked up.
-/

namespace LetterToSound.Voice

/-- How long a phoneme lasts, in milliseconds. -/
structure Duration where
  mean : UInt16
  deviation : UInt16
deriving DecidableEq, Repr

/-- A duration, the phonemes that it is for, and the condition on the first of them. -/
structure DurationRecord where
  first : Phoneme
  second : Phoneme
  condition : FeatureSpec
  duration : Duration
deriving DecidableEq, Repr

/-- A recorded unit, and the percentage of it where playing starts. -/
structure RecordedUnit where
  name : String
  start : UInt8
deriving DecidableEq, Repr

/-- The run of units of a phoneme or of a pair of phonemes. -/
structure UnitRun where
  first : Phoneme
  second : Phoneme
  /-- The number of units before the run. -/
  start : UInt16
  count : UInt8
deriving DecidableEq, Repr

/-- What the loader keeps of a section. -/
inductive Section where
  | strings
  | pitch (ps : List PitchSettings)
  | durations (ds : List DurationRecord)
  | units (us : List RecordedUnit)
  | index (rs : List UnitRun)
deriving DecidableEq, Repr

namespace Section

def pitches : Section → List PitchSettings
  | pitch ps => ps
  | _ => []

def durationRecords : Section → List DurationRecord
  | durations ds => ds
  | _ => []

def recordedUnits : Section → List RecordedUnit
  | units us => us
  | _ => []

def unitRuns : Section → List UnitRun
  | index rs => rs
  | _ => []

end Section

/-- What the header of a database says about its voice. -/
structure Header where
  id : String
  name : String
  synthesizer : String
  author : String
  alphabet : String
  gender : Gender
  volumeScale : Single
  frequency : UInt16
  channels : UInt8
  sampleFormat : String
deriving DecidableEq, Repr, Inhabited

structure Database where
  header : Header
  /-- The sections in the order of the data. -/
  sections : List Section
deriving DecidableEq, Repr, Inhabited

namespace Database

def name : String := "voice database"

/-- The word for the header in messages about its entries. -/
def headerName : String := "VOICEDB"

/-- The gender that a byte at an offset stands for. -/
def genderOf (offset : Nat) (b : UInt8) : Except LoadError Gender :=
  match Gender.ofByte? b with
  | some gender => .ok gender
  | none => .error (.malformedEntry headerName offset)

def readHeader : Read Header := do
  Read.header Layout.voiceMagic name
  let id ← Read.text
  let name ← Read.text
  let synthesizer ← Read.text
  let author ← Read.text
  let alphabet ← Read.text
  let offset ← Read.position
  let gender ← Read.lift (genderOf offset (← Read.u8))
  let volumeScale ← Read.fixed
  let frequency ← Read.u16
  let channels ← Read.u8
  let sampleFormat ← Read.text
  return ⟨id, name, synthesizer, author, alphabet, gender, volumeScale, frequency, channels,
    sampleFormat⟩

def readPitch : Read PitchSettings := do
  let base ← Read.single
  let step ← Read.single
  let deviation ← Read.single
  return ⟨base, step, deviation⟩

def readDuration : Read DurationRecord := do
  let first ← Read.u64
  let second ← Read.u64
  let value ← Read.u64
  let mask ← Read.u64
  let mean ← Read.u16
  let deviation ← Read.u16
  return ⟨⟨first⟩, ⟨second⟩, ⟨value, mask⟩, ⟨mean, deviation⟩⟩

def readUnit : Read RecordedUnit := do
  let name ← Read.text
  let start ← Read.u8
  return ⟨name, start⟩

def readRun : Read UnitRun := do
  let first ← Read.u64
  let second ← Read.u64
  let start ← Read.u16
  let count ← Read.u8
  return ⟨⟨first⟩, ⟨second⟩, start, count⟩

/-- Entries behind their number. -/
def readEntries {α : Type} (entry : Read α) : Read (List α) := do
  let count ← Read.u16
  Read.times count.toNat entry

/-- What follows the tag of a section. -/
def readBody : SectionTag → Read Section
  | .strings => do
    Read.skipStrings
    return .strings
  | .pitch => do return .pitch (← readEntries readPitch)
  | .durations => do return .durations (← readEntries readDuration)
  | .units => do return .units (← readEntries readUnit)
  | .phonemeUnits => do return .index (← readEntries readRun)
  | tag => throw (.unsupportedSection tag name)

theorem forward_readPitch : readPitch.Forward :=
  .bind .single fun _ => .bind .single fun _ => .bind .single fun _ => .pure _

theorem forward_readDuration : readDuration.Forward :=
  .bind .u64 fun _ => .bind .u64 fun _ => .bind .u64 fun _ => .bind .u64 fun _ =>
    .bind .u16 fun _ => .bind .u16 fun _ => .pure _

theorem forward_readUnit : readUnit.Forward := .bind .text fun _ => .bind .u8 fun _ => .pure _

theorem forward_readRun : readRun.Forward :=
  .bind .u64 fun _ => .bind .u64 fun _ => .bind .u16 fun _ => .bind .u8 fun _ => .pure _

theorem forward_readEntries {α : Type} {entry : Read α} (h : entry.Forward) :
    (readEntries entry).Forward :=
  .bind .u16 fun _ => h.times _

theorem forward_readBody (tag : SectionTag) : (readBody tag).Forward := by
  cases tag with
  | strings => exact .bind .skipStrings fun _ => .pure _
  | pitch => exact .bind (forward_readEntries forward_readPitch) fun _ => .pure _
  | durations => exact .bind (forward_readEntries forward_readDuration) fun _ => .pure _
  | units => exact .bind (forward_readEntries forward_readUnit) fun _ => .pure _
  | phonemeUnits => exact .bind (forward_readEntries forward_readRun) fun _ => .pure _
  | _ => exact .throw _

/-- The pitch of the voice. The last one counts. -/
def pitch (db : Database) : Option PitchSettings := (db.sections.flatMap Section.pitches).getLast?

def durations (db : Database) : List DurationRecord := db.sections.flatMap Section.durationRecords

def units (db : Database) : List RecordedUnit := db.sections.flatMap Section.recordedUnits

def runs (db : Database) : List UnitRun := db.sections.flatMap Section.unitRuns

/-- Checks that every run lies within the units; it may stand before them in the data. -/
def checkRuns (db : Database) : Except LoadError Database :=
  let count := db.units.length
  match db.runs.findIdx? fun r => decide (count < r.start.toNat + r.count.toNat) with
  | some i => .error (.malformedEntry SectionTag.phonemeUnits.name i)
  | none => .ok db

/-- Loads a database from its bytes. -/
def load (data : Array UInt8) : Except LoadError Database :=
  match readHeader (Cursor.start data) with
  | (.error e, _) => .error e
  | (.ok header, c) => do
    let sections ← Walk.sections readBody forward_readBody c
    checkRuns ⟨header, sections⟩

/-- The features that count when a phoneme is looked up. -/
def lookupMask : UInt64 := ~~~Family.stress.mask

/-- The duration of a phoneme, `second` being the phoneme behind it in an entry for a pair. The
first entry that is for the two and whose condition holds counts. -/
def durationOf (db : Database) (first second : Phoneme) : Option Duration :=
  (db.durations.find? fun d =>
    d.first.agrees first lookupMask && d.second.agrees second lookupMask &&
      d.condition.holds first).map DurationRecord.duration

/-- The units of a phoneme or of a pair of phonemes. The first run that is for them counts. -/
def unitsOf (db : Database) (first second : Phoneme) : List RecordedUnit :=
  match db.runs.find? fun r =>
      r.first.agrees first lookupMask && r.second.agrees second lookupMask with
  | some r => (db.units.drop r.start.toNat).take r.count.toNat
  | none => []

end Database

end LetterToSound.Voice
