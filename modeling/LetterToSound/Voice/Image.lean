import LetterToSound.Container.Plan
import LetterToSound.Text.Pieces
import LetterToSound.Voice.Definition

/-!
# The sections of a voice database

A voice database holds a header, the pitch, the durations of all phonemes, the units of all
phonemes, and an index that says which run of units belongs to which phoneme. Sections without
entries are left out.
-/

namespace LetterToSound.Voice

namespace Image

def header (d : Definition) : SectionPlan :=
  ⟨Layout.voiceMagic, Layout.sectionSize Layout.voiceHeaderSize 0 0, true,
    [.u16 Layout.byteOrderWitness, .pooled d.id, .pooled d.name, .pooled d.synthesizer,
      .pooled d.author, .pooled d.alphabet, .u8 d.gender.byte, .fixed d.volumeScale,
      .u16 d.frequency, .u8 d.channels, .pooled d.sampleFormat], none⟩

def pitch (p : PitchSettings) : SectionPlan :=
  .counted .pitch (Layout.sectionSize Layout.headerSize 1 Layout.pitchSize) false 1
    [.single p.base, .single p.step, .single p.deviation]

/-- A duration with the phonemes that it is for. -/
def duration (p : PhonemeEntry) (d : DurationEntry) : List Datum :=
  [.u64 p.first.bits, .u64 p.second.bits, .u64 d.condition.value, .u64 d.condition.mask,
    .u16 d.mean, .u16 d.deviation]

def durations (ps : List PhonemeEntry) : List SectionPlan :=
  let all := ps.flatMap PhonemeEntry.durations
  if all.isEmpty then []
  else
    [.counted .durations (Layout.sectionSize Layout.headerSize all.length Layout.durationSize) false
      all.length (ps.flatMap fun p => p.durations.flatMap (duration p))]

def unit (u : UnitEntry) : List Datum := [.pooled u.name, .u8 u.start]

/-- The phonemes that have units, each with the number of units before its own. -/
def runs (ps : List PhonemeEntry) : List (Nat × PhonemeEntry) :=
  Text.place (fun p : PhonemeEntry => p.units.length) 0 (ps.filter fun p => !p.units.isEmpty)

/-- Whether the index can say how many units there are. -/
def countable (run : Nat × PhonemeEntry) : Bool := run.2.units.length < UInt8.size

def run (r : Nat × PhonemeEntry) : List Datum :=
  [.u64 r.2.first.bits, .u64 r.2.second.bits, .u16 (UInt16.ofNat r.1),
    .u8 (UInt8.ofNat r.2.units.length)]

/-- The index goes no further than the first phoneme that has too many units. -/
def index (ps : List PhonemeEntry) : SectionPlan :=
  let rs := runs ps
  let plan := SectionPlan.counted .phonemeUnits
    (Layout.sectionSize Layout.headerSize rs.length Layout.phonemeUnitsSize) false rs.length
    ((rs.takeWhile countable).flatMap run)
  if rs.all countable then plan else { plan with excess := some .units }

def units (ps : List PhonemeEntry) : List SectionPlan :=
  let all := ps.flatMap PhonemeEntry.units
  if all.isEmpty then []
  else
    [.counted .units (Layout.sectionSize Layout.headerSize all.length Layout.unitSize) true
      all.length (all.flatMap unit), index ps]

end Image

namespace Definition

/-- The sections of the database of a definition. -/
def image (d : Definition) : List SectionPlan :=
  Image.header d ::
    (d.pitch.toList.map Image.pitch ++ Image.durations d.phonemes ++ Image.units d.phonemes)

end Definition

end LetterToSound.Voice
