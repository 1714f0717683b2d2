import Mathlib
import LetterToSound.Proofs.Container.Sizes
import LetterToSound.Proofs.Language.Parts
import LetterToSound.Proofs.Voice.Reload

/-!
# The sizes of databases

The size of a database in terms of its definition: the header with its strings, and for each section
its header, its entries and its strings. A class and a group of rules have an entry more, which ends
them.
-/

namespace LetterToSound

namespace Language

namespace Part

/-- The bytes in front of the entries. -/
def headerSize : Part → Nat
  | conditionals _ | dictionary _ => Layout.headerSize
  | letterClass _ | spellingRules _ _ | letterRules _ _ => Layout.groupHeaderSize

def entrySize : Part → Nat
  | conditionals _ => Layout.conditionalSize
  | letterClass _ => Layout.classMemberSize
  | spellingRules _ _ | letterRules _ _ => Layout.ruleSize
  | dictionary _ => Layout.dictionaryEntrySize

/-- The strings of a part, as often as they are referred to. -/
def strings : Part → List Bytes
  | conditionals cs => cs.map Conditional.locale
  | letterClass c => c.members
  | spellingRules _ rules | letterRules _ rules =>
    (rulePairs rules).flatMap fun p => [p.1, p.2]
  | dictionary entries => (entries.map Entry.stored).flatMap fun p => [p.1, p.2]

/-- The bytes that a part takes with its strings. -/
def room (p : Part) : Nat := p.headerSize + p.count * p.entrySize + Pool.tableSize p.strings

lemma sum_size_values (p : Part) :
    Layout.headerSize + (p.values.map Datum.size).sum = p.headerSize + p.count * p.entrySize := by
  have hpairs (pairs : List (Bytes × Bytes)) :
      ((pairs.flatMap pairData).map Datum.size).sum = pairs.length * Layout.ruleSize :=
    Datum.sum_size_flatMap pairs fun _ => rfl
  have hrules (group : UInt8) (rules : List Rule) : Layout.headerSize +
      ((Datum.u8 group :: (rulePairs rules).flatMap pairData).map Datum.size).sum =
        Layout.groupHeaderSize + (rules.length + 1) * Layout.ruleSize := by
    rw [List.map_cons, List.sum_cons, hpairs, rulePairs, List.length_append, List.length_map,
      ← Nat.add_assoc]
    rfl
  cases p with
  | conditionals cs =>
    exact congrArg (Layout.headerSize + ·) (Datum.sum_size_flatMap cs fun _ => rfl)
  | letterClass c =>
    have hmembers : ((c.members.map Datum.pooled).map Datum.size).sum =
        c.members.length * Layout.classMemberSize := by
      rw [List.map_eq_flatMap (f := Datum.pooled)]
      exact Datum.sum_size_flatMap c.members fun _ => rfl
    rw [values, List.map_cons, List.sum_cons, List.map_append, List.sum_append, hmembers]
    simp only [headerSize, count, entrySize, Layout.groupHeaderSize, Layout.headerSize,
      Layout.classMemberSize, Layout.stringReferenceSize, Datum.size, List.map_cons, List.map_nil,
      List.sum_cons, List.sum_nil]
    omega
  | spellingRules group rules => exact hrules group rules
  | letterRules group rules => exact hrules group rules
  | dictionary entries =>
    refine congrArg (Layout.headerSize + ·) ((hpairs _).trans ?_)
    rw [List.length_map]
    rfl

lemma filterMap_values (p : Part) : p.values.filterMap Datum.string? = p.strings := by
  have hpairs (pairs : List (Bytes × Bytes)) :
      (pairs.flatMap pairData).filterMap Datum.string? = pairs.flatMap fun p => [p.1, p.2] := by
    rw [List.filterMap_flatMap]
    rfl
  cases p with
  | conditionals cs =>
    rw [values, List.filterMap_flatMap, strings, List.map_eq_flatMap]
    rfl
  | letterClass c =>
    have hmembers : (c.members.map Datum.pooled).filterMap Datum.string? = c.members := by
      rw [List.filterMap_map]
      exact List.filterMap_some
    rw [values, List.filterMap_cons_none rfl, List.filterMap_append, hmembers]
    exact List.append_nil _
  | spellingRules group rules => exact hpairs _
  | letterRules group rules => exact hpairs _
  | dictionary entries => exact hpairs _

/-- What is known of a part before it is written. -/
lemma foretold (p : Part) : SectionPlan.Foretold [p.plan] (p.count < UInt16.size) p.room := by
  have hsize : p.size = Layout.sectionSize p.headerSize p.count p.entrySize := by cases p <;> rfl
  have hfits : p.headerSize + UInt16.size * p.entrySize < UInt32.size := by
    cases p <;> simp only [headerSize, entrySize] <;> decide
  rw [plan, hsize, room, ← filterMap_values]
  exact .counted hfits (.inl rfl) p.sum_size_values

end Part

namespace Definition

/-- Whether each section has no more entries than its count can say. -/
def Countable (d : Definition) : Prop := ∀ p ∈ d.parts, p.count < UInt16.size

/-- The size of the database of a definition. -/
def room (d : Definition) : Nat :=
  Layout.languageHeaderSize + Pool.tableSize [d.locale, d.alphabet] + (d.parts.map Part.room).sum

lemma foretold (d : Definition) : SectionPlan.Foretold d.image d.Countable d.room := by
  have hheader : SectionPlan.Foretold [Image.header d.locale d.alphabet] True
      (Layout.languageHeaderSize + Pool.tableSize [d.locale, d.alphabet]) :=
    .of_exact ⟨rfl, rfl⟩ (.inl rfl) trivial
  have hparts : SectionPlan.Foretold (d.parts.map Part.plan) d.Countable (d.parts.map Part.room).sum :=
    .map fun p _ => p.foretold
  rw [image_eq]
  exact (hheader.append hparts).congr (iff_of_eq (true_and _)) rfl

/-- A string that is referred to twice is kept once. -/
example : (Definition.mk [101, 110] [101, 110] [] [] [] [] []).room = 16 + (7 + 3) := by decide

end Definition

end Language

namespace Voice

namespace Definition

/-- The phonemes that have units. -/
def indexed (d : Definition) : List PhonemeEntry := d.phonemes.filter fun p => !p.units.isEmpty

/-- Whether each section has no more entries than its count can say, and each phoneme no more units. -/
structure Countable (d : Definition) : Prop where
  durations : (d.phonemes.flatMap PhonemeEntry.durations).length < UInt16.size
  units : (d.phonemes.flatMap PhonemeEntry.units).length < UInt16.size
  indexed : d.indexed.length < UInt16.size
  phoneme : ∀ p ∈ d.phonemes, p.units.length < UInt8.size

/-- The size of the database of a definition. -/
def room (d : Definition) : Nat :=
  let durations := d.phonemes.flatMap PhonemeEntry.durations
  let units := d.phonemes.flatMap PhonemeEntry.units
  Layout.voiceHeaderSize +
      Pool.tableSize [d.id, d.name, d.synthesizer, d.author, d.alphabet, d.sampleFormat] +
    (if d.pitch.isSome then Layout.headerSize + Layout.pitchSize else 0) +
    (if durations.isEmpty then 0
      else Layout.headerSize + durations.length * Layout.durationSize) +
    (if units.isEmpty then 0
      else Layout.headerSize + units.length * Layout.unitSize +
          Pool.tableSize (units.map UnitEntry.name) +
        (Layout.headerSize + d.indexed.length * Layout.phonemeUnitsSize))

lemma foretold_pitch (d : Definition) : SectionPlan.Foretold (d.pitch.toList.map Image.pitch) True
    (if d.pitch.isSome then Layout.headerSize + Layout.pitchSize else 0) := by
  cases d.pitch with
  | none => exact .nil
  | some p =>
    have hpitch : SectionPlan.Foretold [Image.pitch p] (1 < UInt16.size)
        (Layout.headerSize + 1 * Layout.pitchSize + 0) :=
      SectionPlan.Foretold.counted (by decide) (.inr rfl) rfl
    exact hpitch.congr (iff_true_intro (by decide)) rfl

lemma foretold_durations (d : Definition) : SectionPlan.Foretold (Image.durations d.phonemes)
    ((d.phonemes.flatMap PhonemeEntry.durations).length < UInt16.size)
    (if (d.phonemes.flatMap PhonemeEntry.durations).isEmpty then 0
      else Layout.headerSize +
        (d.phonemes.flatMap PhonemeEntry.durations).length * Layout.durationSize) := by
  rw [Image.durations]
  split
  case isTrue hempty =>
    rw [List.isEmpty_iff.mp hempty]
    exact SectionPlan.Foretold.nil.congr (by decide) rfl
  case isFalse =>
    rw [flatMap_duration, ← length_durations]
    refine SectionPlan.Foretold.counted (by decide) (.inr ?_) ?_
    · rw [List.filterMap_flatMap]
      simp [Image.duration, Datum.string?]
    · exact congrArg (Layout.headerSize + ·) (Datum.sum_size_flatMap d.durations fun _ => rfl)

lemma map_snd_runs (d : Definition) : (Image.runs d.phonemes).map Prod.snd = d.indexed :=
  map_snd_place

lemma length_runs (d : Definition) : (Image.runs d.phonemes).length = d.indexed.length := by
  rw [← map_snd_runs, List.length_map]

/-- A phoneme without units can be counted, so it makes no difference that the index has none. -/
lemma all_countable_iff (d : Definition) : (Image.runs d.phonemes).all Image.countable = true ↔
    ∀ p ∈ d.phonemes, p.units.length < UInt8.size := by
  have hruns : (Image.runs d.phonemes).all Image.countable =
      d.indexed.all fun p => p.units.length < UInt8.size := by
    rw [← map_snd_runs, List.all_map]
    rfl
  have hempty (p : PhonemeEntry) (h : p.units = []) : p.units.length < UInt8.size := by
    rw [h]
    decide
  rw [hruns, List.all_eq_true]
  simp only [indexed, List.mem_filter, decide_eq_true_eq, Bool.not_eq_true', List.isEmpty_eq_false_iff]
  exact ⟨fun h p hp => (em (p.units = [])).elim (hempty p) fun hne => h p ⟨hp, hne⟩,
    fun h p hp => h p hp.1⟩

/-- The index is known unless there is a phoneme with more units than can be counted. -/
lemma foretold_index (d : Definition) : SectionPlan.Foretold [Image.index d.phonemes]
    (d.indexed.length < UInt16.size ∧ ∀ p ∈ d.phonemes, p.units.length < UInt8.size)
    (Layout.headerSize + d.indexed.length * Layout.phonemeUnitsSize) := by
  have hstrings (rs : List (Nat × PhonemeEntry)) :
      (rs.flatMap Image.run).filterMap Datum.string? = [] := by
    rw [List.filterMap_flatMap]
    simp [Image.run, Datum.string?]
  rw [Image.index, ← all_countable_iff, ← length_runs]
  by_cases hall : (Image.runs d.phonemes).all Image.countable = true
  · have htake : (Image.runs d.phonemes).takeWhile Image.countable = Image.runs d.phonemes :=
      List.takeWhile_eq_self_iff.mpr (List.all_eq_true.mp hall)
    rw [if_pos hall, htake]
    refine (SectionPlan.Foretold.counted (by decide) (.inr (hstrings _)) ?_).congr ?_ rfl
    · exact congrArg (Layout.headerSize + ·)
        (Datum.sum_size_flatMap (Image.runs d.phonemes) fun _ => rfl)
    · exact (and_iff_left hall).symm
  · rw [if_neg hall]
    refine .of_excess (by simp) (.inr (SectionPlan.strings_eq_nil ?_)) fun h => hall h.2
    unfold SectionPlan.counted
    split
    · exact hstrings _
    · rfl

lemma foretold_units (d : Definition) : SectionPlan.Foretold (Image.units d.phonemes)
    ((d.phonemes.flatMap PhonemeEntry.units).length < UInt16.size ∧
      d.indexed.length < UInt16.size ∧ ∀ p ∈ d.phonemes, p.units.length < UInt8.size)
    (if (d.phonemes.flatMap PhonemeEntry.units).isEmpty then 0
      else Layout.headerSize + (d.phonemes.flatMap PhonemeEntry.units).length * Layout.unitSize +
          Pool.tableSize ((d.phonemes.flatMap PhonemeEntry.units).map UnitEntry.name) +
        (Layout.headerSize + d.indexed.length * Layout.phonemeUnitsSize)) := by
  rw [Image.units]
  split
  case isTrue hempty =>
    rw [List.isEmpty_iff] at hempty
    have hunits : ∀ p ∈ d.phonemes, p.units = [] := by simpa using hempty
    have hindexed : d.indexed = [] := by simpa [indexed] using hunits
    refine SectionPlan.Foretold.nil.congr (iff_of_true trivial ?_) rfl
    rw [hempty, hindexed]
    exact ⟨by decide, by decide, fun p hp => by simp [hunits p hp]⟩
  case isFalse =>
    have hstrings : ((d.phonemes.flatMap PhonemeEntry.units).flatMap Image.unit).filterMap
        Datum.string? = (d.phonemes.flatMap PhonemeEntry.units).map UnitEntry.name := by
      rw [List.filterMap_flatMap, List.map_eq_flatMap]
      rfl
    rw [← hstrings]
    refine (SectionPlan.Foretold.counted (by decide) (.inl rfl) ?_).append d.foretold_index
    exact congrArg (Layout.headerSize + ·) (Datum.sum_size_flatMap _ fun _ => rfl)

lemma foretold (d : Definition) : SectionPlan.Foretold d.image d.Countable d.room := by
  have hheader : SectionPlan.Foretold [Image.header d] True (Layout.voiceHeaderSize +
      Pool.tableSize [d.id, d.name, d.synthesizer, d.author, d.alphabet, d.sampleFormat]) :=
    .of_exact ⟨rfl, rfl⟩ (.inl rfl) trivial
  have himage := hheader.append
    ((d.foretold_pitch.append d.foretold_durations).append d.foretold_units)
  refine himage.congr ⟨?_, ?_⟩ (by simp only [room]; omega)
  · rintro ⟨-, ⟨-, hdurations⟩, hunits, hindexed, hphoneme⟩
    exact ⟨hdurations, hunits, hindexed, hphoneme⟩
  · rintro ⟨hdurations, hunits, hindexed, hphoneme⟩
    exact ⟨trivial, ⟨trivial, hdurations⟩, hunits, hindexed, hphoneme⟩

end Definition

end Voice

/-- The sizes of databases are known before they are written. A database of either kind can be written
just if its sections have no more entries than their counts can say and its size fits in 32 bits, and
then it has that size. Neither a size that is wrong nor a string without a table is ever a reason why
one cannot be written. -/
theorem sized_write :
    (∀ d : Language.Definition, Sized (fun limit => d.write limit) d.Countable d.room) ∧
      ∀ d : Voice.Definition, Sized (fun limit => d.write limit) d.Countable d.room :=
  ⟨fun d => d.foretold.sized, fun d => d.foretold.sized⟩

end LetterToSound
