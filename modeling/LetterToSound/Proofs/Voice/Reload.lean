import Mathlib
import LetterToSound.Compile
import LetterToSound.Voice.Database
import LetterToSound.Proofs.Container.Fields
import LetterToSound.Proofs.Container.Success

/-!
# Loading a voice that has been written

A voice definition that is written as a database is given back by loading the database, as far as it
can be asked for: what the header says, the pitch, and for two phonemes their duration and their
units. Durations are kept with the phonemes that they are for. Units are kept in one table for all
phonemes; an index says for each phoneme with units where its own begin, which is behind those of the
phonemes before it.
-/

namespace LetterToSound.Voice

open Cursor (Refers)
open Read (Takes)

/-- A phoneme without its stress. -/
def unstressed (p : Phoneme) : Phoneme := p.set 0 Family.stress.mask

/-- Whether an entry is for two phonemes, whatever their stress is. -/
def PhonemeEntry.isFor (e : PhonemeEntry) (first second : Phoneme) : Bool :=
  unstressed e.first = unstressed first ∧ unstressed e.second = unstressed second

/-- What a database says of a duration. -/
def DurationEntry.stored (t : DurationEntry) : Duration := ⟨t.mean, t.deviation⟩

/-- What a database says of a unit. -/
def UnitEntry.stored (u : UnitEntry) : Bytes × UInt8 := (u.name, u.start)

/-- A recorded unit with its name as bytes. -/
def RecordedUnit.stored (u : RecordedUnit) : Bytes × UInt8 := (Bytes.ofString u.name, u.start)

namespace Definition

/-- The strings of a definition. -/
def strings (d : Definition) : List Bytes :=
  [d.id, d.name, d.synthesizer, d.author, d.alphabet, d.sampleFormat] ++
    (d.phonemes.flatMap PhonemeEntry.units).map UnitEntry.name

/-- The durations of a definition in the order of their declaration, each with its entry. -/
def durations (d : Definition) : List (PhonemeEntry × DurationEntry) :=
  d.phonemes.flatMap fun e => e.durations.map fun t => (e, t)

/-- The first duration that is for two phonemes and whose condition holds of the first of them. -/
def durationOf (d : Definition) (first second : Phoneme) : Option Duration :=
  (d.durations.find? fun (e, t) => e.isFor first second && t.condition.holds first).map
    fun (_, t) => t.stored

/-- The units of the first entry that has any and is for two phonemes. -/
def unitsOf (d : Definition) (first second : Phoneme) : List UnitEntry :=
  ((d.phonemes.find? fun e => !e.units.isEmpty && e.isFor first second).map
    PhonemeEntry.units).getD []

/-- A definition whose strings are texts without zero bytes. -/
structure Storable (d : Definition) : Prop where
  zero : ∀ s ∈ d.strings, 0 ∉ s
  text : ∀ s ∈ d.strings, (Bytes.toString? s).isSome

end Definition

/-- A database that says what a definition says. Only the volume is kept less exactly, as a number in
fixed point. -/
structure Database.Represents (db : Database) (d : Definition) : Prop where
  id : Bytes.ofString db.header.id = d.id
  name : Bytes.ofString db.header.name = d.name
  synthesizer : Bytes.ofString db.header.synthesizer = d.synthesizer
  author : Bytes.ofString db.header.author = d.author
  alphabet : Bytes.ofString db.header.alphabet = d.alphabet
  gender : db.header.gender = d.gender
  volumeScale : db.header.volumeScale =
    FixedPoint.decode (FixedPoint.encode d.volumeScale).1 (FixedPoint.encode d.volumeScale).2
  frequency : db.header.frequency = d.frequency
  channels : db.header.channels = d.channels
  sampleFormat : Bytes.ofString db.header.sampleFormat = d.sampleFormat
  pitch : db.pitch = d.pitch
  durationOf : ∀ first second, db.durationOf first second = d.durationOf first second
  unitsOf : ∀ first second, (db.unitsOf first second).map RecordedUnit.stored =
    (d.unitsOf first second).map UnitEntry.stored

/-- The text of bytes; empty where they are none. -/
def textOf (s : Bytes) : String := (Bytes.toString? s).getD ""

/-- A string that comes back from a database: a text without zero bytes. -/
def Kept (s : Bytes) : Prop := 0 ∉ s ∧ (Bytes.toString? s).isSome

lemma Kept.toString? {s : Bytes} (h : Kept s) : Bytes.toString? (Bytes.cut s) = some (textOf s) := by
  obtain ⟨t, ht⟩ := Option.isSome_iff_exists.mp h.2
  rw [Bytes.cut_of_not_mem h.1, textOf, ht, Option.getD_some]

lemma Kept.ofString {s : Bytes} (h : Kept s) : Bytes.ofString (textOf s) = s := by
  refine Bytes.ofString_of_toString? ?_
  rw [← h.toString?, Bytes.cut_of_not_mem h.1]

lemma Definition.Storable.kept {d : Definition} (hd : d.Storable) : ∀ s ∈ d.strings, Kept s :=
  fun s hs => ⟨hd.zero s hs, hd.text s hs⟩

section Entries

variable {data : Array UInt8} {place : Bytes → Nat}

/-- What the loader makes of a duration. -/
def durationRecord (entry : PhonemeEntry × DurationEntry) : DurationRecord :=
  ⟨entry.1.first, entry.1.second, entry.2.condition, entry.2.stored⟩

/-- What the loader makes of a unit. -/
def recordedUnit (u : UnitEntry) : RecordedUnit := ⟨textOf u.name, u.start⟩

/-- What the loader makes of an entry of the index. -/
def unitRun (r : Nat × PhonemeEntry) : UnitRun :=
  ⟨r.2.first, r.2.second, UInt16.ofNat r.1, UInt8.ofNat r.2.units.length⟩

/-- What the loader makes of the header. -/
def headerOf (d : Definition) : Header :=
  ⟨textOf d.id, textOf d.name, textOf d.synthesizer, textOf d.author, textOf d.alphabet, d.gender,
    FixedPoint.decode (FixedPoint.encode d.volumeScale).1 (FixedPoint.encode d.volumeScale).2,
    d.frequency, d.channels, textOf d.sampleFormat⟩

lemma takes_readPitch (p : PitchSettings) : Takes data Database.readPitch
    ([Datum.single p.base, .single p.step, .single p.deviation].flatMap (Datum.bytes place)) p :=
  (Takes.single p.base).bind ((Takes.single p.step).bind ((Takes.single p.deviation).bind (.pure p)))

lemma takes_readDuration (entry : PhonemeEntry × DurationEntry) : Takes data Database.readDuration
    ((Image.duration entry.1 entry.2).flatMap (Datum.bytes place)) (durationRecord entry) :=
  (Takes.u64 entry.1.first.bits).bind <| (Takes.u64 entry.1.second.bits).bind <|
    (Takes.u64 entry.2.condition.value).bind <| (Takes.u64 entry.2.condition.mask).bind <|
    (Takes.u16 entry.2.mean).bind <| (Takes.u16 entry.2.deviation).bind <| .pure _

lemma takes_readUnit {u : UnitEntry} (hkept : Kept u.name) (hs : Refers data place u.name) :
    Takes data Database.readUnit ((Image.unit u).flatMap (Datum.bytes place)) (recordedUnit u) :=
  (Takes.text hs hkept.toString?).bind <| (Takes.u8 u.start).bind <| .pure _

lemma takes_readRun (r : Nat × PhonemeEntry) : Takes data Database.readRun
    ((Image.run r).flatMap (Datum.bytes place)) (unitRun r) :=
  (Takes.u64 r.2.first.bits).bind <| (Takes.u64 r.2.second.bits).bind <|
    (Takes.u16 (UInt16.ofNat r.1)).bind <| (Takes.u8 (UInt8.ofNat r.2.units.length)).bind <| .pure _

/-- The header of a definition is read as what it says. -/
lemma takes_readHeader {d : Definition} (hd : d.Storable)
    (hs : ∀ s, Datum.pooled s ∈ (Image.header d).body → Refers data place s) :
    Takes data Database.readHeader
      ((Image.header d).magic ++ (Image.header d).body.flatMap (Datum.bytes place)) (headerOf d) := by
  have htext : ∀ s, Datum.pooled s ∈ (Image.header d).body →
      Takes data Read.text (LittleEndian.encode 4 (place s)) (textOf s) := by
    intro s hmem
    refine Takes.text (hs s hmem) (hd.kept s ?_).toString?
    simp only [Image.header, List.mem_cons, Datum.pooled.injEq, reduceCtorEq, List.not_mem_nil,
      or_false, false_or] at hmem
    simp only [Definition.strings, List.mem_append, List.mem_cons]
    tauto
  have hgender (offset : Nat) : Takes data (Read.lift (Database.genderOf offset d.gender.byte)) []
      d.gender := by
    rw [Database.genderOf, Gender.ofByte?_byte]
    exact .lift _
  have hid := htext d.id (by simp [Image.header])
  have hname := htext d.name (by simp [Image.header])
  have hsynthesizer := htext d.synthesizer (by simp [Image.header])
  have hauthor := htext d.author (by simp [Image.header])
  have halphabet := htext d.alphabet (by simp [Image.header])
  have hsampleFormat := htext d.sampleFormat (by simp [Image.header])
  have hmagic : Layout.voiceMagic ≠ [] := by decide
  have hall : Takes data Database.readHeader
      (((Image.header d).magic ++ LittleEndian.encode 2 Layout.byteOrderWitness.toNat) ++
        (Image.header d).body.tail.flatMap (Datum.bytes place)) (headerOf d) :=
    (Takes.header Database.name hmagic).bind <| hid.bind <| hname.bind <| hsynthesizer.bind <|
      hauthor.bind <| halphabet.bind <| Takes.bind_position fun offset =>
      (Takes.u8 d.gender.byte).bind <| (hgender offset).bind <| (Takes.fixed _ _).bind <|
      (Takes.u16 d.frequency).bind <| (Takes.u8 d.channels).bind <|
      hsampleFormat.bind <| .pure (headerOf d)
  rw [List.append_assoc] at hall
  exact hall

end Entries

section Sections

variable {ps : List PhonemeEntry}

/-- A counted section is read as its entries. -/
lemma readAs_counted {β γ : Type} {tag : SectionTag} {size : UInt32} {pooling : Bool}
    {entry : Read γ} {wrap : List γ → Section} {xs : List β} {enc : β → List Datum} {value : β → γ}
    (hbody : Database.readBody tag = do return wrap (← Database.readEntries entry))
    (hexact : (SectionPlan.counted tag size pooling xs.length (xs.flatMap enc)).Exact)
    (hentry : ∀ x ∈ xs, ∀ (data : Array UInt8) (place : Bytes → Nat),
      (∀ s, Datum.pooled s ∈ enc x → Refers data place s) →
        Takes data entry ((enc x).flatMap (Datum.bytes place)) (value x)) :
    (SectionPlan.counted tag size pooling xs.length (xs.flatMap enc)).ReadAs Database.readBody
      (wrap (xs.map value)) := by
  obtain ⟨hplan, hcount⟩ := SectionPlan.counted_of_exact hexact
  have hword : (UInt16.ofNat xs.length).toNat = xs.length := UInt16.toNat_ofNat_of_lt' hcount
  rw [hplan]
  intro data place hs
  have htimes : Takes data (Read.times (UInt16.ofNat xs.length).toNat entry)
      ((xs.flatMap enc).flatMap (Datum.bytes place)) (xs.map value) := by
    rw [hword, List.flatMap_assoc]
    refine Takes.times fun x hx => hentry x hx data place fun s hmem => hs s ?_
    exact List.mem_cons_of_mem _ (List.mem_flatMap.mpr ⟨x, hx, hmem⟩)
  refine (Takes.tag tag).bind ?_
  rw [hbody]
  exact ((Takes.u16 _).bind htimes).bind_nil (.pure _)

/-- The index of units that has been written says for every phoneme how many units it has. -/
lemma index_of_exact (h : (Image.index ps).Exact) :
    (∀ r ∈ Image.runs ps, Image.countable r = true) ∧
      Image.index ps = .counted .phonemeUnits
        (Layout.sectionSize Layout.headerSize (Image.runs ps).length Layout.phonemeUnitsSize) false
        (Image.runs ps).length ((Image.runs ps).flatMap Image.run) := by
  have hexcess := h.excess
  unfold Image.index at hexcess ⊢
  dsimp only at hexcess ⊢
  split at hexcess
  · rename_i hall
    have hcountable := List.all_eq_true.mp hall
    rw [if_pos hall, List.takeWhile_eq_self_iff.mpr hcountable]
    exact ⟨hcountable, rfl⟩
  · cases hexcess

/-- What the loader makes of the sections behind the header. -/
def found (d : Definition) : List Section :=
  (d.pitch.toList.map fun p => .pitch [p]) ++
    (if (d.phonemes.flatMap PhonemeEntry.durations).isEmpty then []
      else [.durations (d.durations.map durationRecord)]) ++
    if (d.phonemes.flatMap PhonemeEntry.units).isEmpty then []
    else [.units ((d.phonemes.flatMap PhonemeEntry.units).map recordedUnit),
      .index ((Image.runs d.phonemes).map unitRun)]

variable {d : Definition}

lemma length_durations (d : Definition) :
    d.durations.length = (d.phonemes.flatMap PhonemeEntry.durations).length := by
  simp [Definition.durations, List.length_flatMap]

lemma flatMap_duration (d : Definition) :
    (d.phonemes.flatMap fun e => e.durations.flatMap (Image.duration e)) =
      d.durations.flatMap fun entry => Image.duration entry.1 entry.2 := by
  simp [Definition.durations, List.flatMap_assoc, List.flatMap_map]

lemma readAs_pitch (hexact : ∀ plan ∈ d.pitch.toList.map Image.pitch, plan.Exact) :
    List.Forall₂ (SectionPlan.ReadAs Database.readBody) (d.pitch.toList.map Image.pitch)
      (d.pitch.toList.map fun p => .pitch [p]) := by
  rw [List.forall₂_map_left_iff, List.forall₂_map_right_iff, List.forall₂_same]
  intro p hp
  have hp := hexact _ (List.mem_map_of_mem hp)
  have hvalues : Image.pitch p = .counted .pitch (Layout.sectionSize Layout.headerSize 1 Layout.pitchSize)
      false [p].length ([p].flatMap fun p => [.single p.base, .single p.step, .single p.deviation]) := rfl
  have hread : [p].map id = [p] := rfl
  rw [hvalues] at hp ⊢
  rw [← hread]
  exact readAs_counted rfl hp fun x _ data place _ => takes_readPitch x

lemma readAs_durations (hexact : ∀ plan ∈ Image.durations d.phonemes, plan.Exact) :
    List.Forall₂ (SectionPlan.ReadAs Database.readBody) (Image.durations d.phonemes)
      (if (d.phonemes.flatMap PhonemeEntry.durations).isEmpty then []
        else [.durations (d.durations.map durationRecord)]) := by
  rw [Image.durations] at hexact ⊢
  rw [flatMap_duration, ← length_durations] at hexact ⊢
  split
  · exact .nil
  · rename_i hne
    rw [if_neg hne] at hexact
    exact .cons (readAs_counted rfl (hexact _ List.mem_cons_self) fun entry _ data place _ =>
      takes_readDuration entry) .nil

lemma readAs_units (hd : d.Storable) (hexact : ∀ plan ∈ Image.units d.phonemes, plan.Exact) :
    List.Forall₂ (SectionPlan.ReadAs Database.readBody) (Image.units d.phonemes)
      (if (d.phonemes.flatMap PhonemeEntry.units).isEmpty then []
        else [.units ((d.phonemes.flatMap PhonemeEntry.units).map recordedUnit),
          .index ((Image.runs d.phonemes).map unitRun)]) := by
  rw [Image.units] at hexact ⊢
  split
  · exact .nil
  · rename_i hne
    rw [if_neg hne] at hexact
    obtain ⟨hunits, hindex⟩ := List.forall_mem_cons.mp hexact
    have hindex := hindex _ List.mem_cons_self
    have hplan := (index_of_exact hindex).2
    refine .cons (readAs_counted rfl hunits fun u hu data place hs => ?_) (.cons ?_ .nil)
    · refine takes_readUnit (hd.kept u.name ?_) (hs u.name (by simp [Image.unit]))
      exact List.mem_append_right _ (List.mem_map_of_mem hu)
    · rw [hplan] at hindex ⊢
      exact readAs_counted rfl hindex fun r _ data place _ => takes_readRun r

/-- The sections behind the header are read as what they say. -/
lemma readAs_image (hd : d.Storable) (hexact : ∀ plan ∈ d.image.tail, plan.Exact) :
    List.Forall₂ (SectionPlan.ReadAs Database.readBody) d.image.tail (found d) := by
  simp only [Definition.image, List.tail_cons, List.forall_mem_append] at hexact
  exact List.rel_append (List.rel_append (readAs_pitch hexact.1.1) (readAs_durations hexact.1.2))
    (readAs_units hd hexact.2)

end Sections

section Runs

variable {α : Type} {width : α → Nat} {start : Nat} {items : List α}

/-- An item that has been placed stands behind the widths of those before it. -/
lemma exists_of_mem_place {r : Nat × α} (h : r ∈ Text.place width start items) :
    ∃ before after, items = before ++ r.2 :: after ∧ r.1 = start + (before.map width).sum := by
  induction items generalizing start with
  | nil => simp at h
  | cons a items ih =>
    rw [Text.place_cons] at h
    rcases List.mem_cons.mp h with rfl | h
    · exact ⟨[], items, rfl, by simp⟩
    · obtain ⟨before, after, rfl, hplace⟩ := ih h
      refine ⟨a :: before, after, rfl, ?_⟩
      rw [hplace, List.map_cons, List.sum_cons, Nat.add_assoc]

lemma map_snd_place : (Text.place width start items).map Prod.snd = items := by
  induction items generalizing start with
  | nil => rfl
  | cons a items ih => rw [Text.place_cons, List.map_cons, ih]

variable {ps : List PhonemeEntry}

/-- Phonemes without units add nothing to the table of units. -/
lemma flatMap_units_filter (ps : List PhonemeEntry) :
    (ps.filter fun e => !e.units.isEmpty).flatMap PhonemeEntry.units =
      ps.flatMap PhonemeEntry.units := by
  induction ps with
  | nil => rfl
  | cons e ps ih =>
    rw [List.filter_cons, List.flatMap_cons]
    split
    · rw [List.flatMap_cons, ih]
    · rename_i hempty
      have hnil : e.units = [] := by simpa using hempty
      rw [ih, hnil, List.nil_append]

/-- The units of a phoneme stand in the table where the index says. -/
lemma exists_of_mem_runs {r : Nat × PhonemeEntry} (h : r ∈ Image.runs ps) :
    ∃ before after, ps.flatMap PhonemeEntry.units = before ++ (r.2.units ++ after) ∧
      r.1 = before.length := by
  obtain ⟨before, after, hfilter, hplace⟩ := exists_of_mem_place h
  refine ⟨before.flatMap PhonemeEntry.units, after.flatMap PhonemeEntry.units, ?_, ?_⟩
  · rw [← flatMap_units_filter, hfilter, List.flatMap_append, List.flatMap_cons]
  · rw [hplace, List.length_flatMap, Nat.zero_add]

end Runs

section Lookups

variable {d : Definition} {db : Database}

/-- What a database holds of a definition, section by section. -/
structure Holds (db : Database) (d : Definition) : Prop where
  header : db.header = headerOf d
  pitch : db.pitch = d.pitch
  durations : db.durations = d.durations.map durationRecord
  units : db.units = (d.phonemes.flatMap PhonemeEntry.units).map recordedUnit
  runs : db.runs = (Image.runs d.phonemes).map unitRun

lemma agrees_lookupMask (p q : Phoneme) :
    p.agrees q Database.lookupMask = decide (unstressed p = unstressed q) := by
  have hbits (p : Phoneme) : unstressed p = ⟨p.get Database.lookupMask⟩ := by
    simp [unstressed, Phoneme.set, Phoneme.get, Database.lookupMask]
  rw [hbits, hbits, Phoneme.agrees, beq_eq_decide]
  simp

/-- An entry is for two phonemes if both agree with its own in what counts when they are looked up. -/
lemma isFor_eq (e : PhonemeEntry) (first second : Phoneme) : e.isFor first second =
    (e.first.agrees first Database.lookupMask && e.second.agrees second Database.lookupMask) := by
  rw [agrees_lookupMask, agrees_lookupMask, PhonemeEntry.isFor]
  exact Bool.decide_and _ _

/-- The first duration that was declared for two phonemes is the first one that is found. -/
lemma Holds.durationOf (h : Holds db d) (first second : Phoneme) :
    db.durationOf first second = d.durationOf first second := by
  rw [Database.durationOf, Definition.durationOf, h.durations, List.find?_map, Option.map_map]
  simp only [Function.comp_def, durationRecord, isFor_eq]

/-- The run of a phoneme fits in the fields of the index and covers the units of the phoneme. -/
lemma unitRun_of_mem_runs (hcount : (d.phonemes.flatMap PhonemeEntry.units).length < UInt16.size)
    {r : Nat × PhonemeEntry} (hr : r ∈ Image.runs d.phonemes) (hcountable : Image.countable r = true) :
    (unitRun r).start.toNat + (unitRun r).count.toNat ≤
        (d.phonemes.flatMap PhonemeEntry.units).length ∧
      ((d.phonemes.flatMap PhonemeEntry.units).drop (unitRun r).start.toNat).take
        (unitRun r).count.toNat = r.2.units := by
  obtain ⟨before, after, hunits, hplace⟩ := exists_of_mem_runs hr
  rw [hunits] at hcount ⊢
  simp only [List.length_append] at hcount
  have hstart : (unitRun r).start.toNat = before.length := by
    rw [unitRun, UInt16.toNat_ofNat_of_lt' (by omega), hplace]
  have hlength : (unitRun r).count.toNat = r.2.units.length :=
    UInt8.toNat_ofNat_of_lt' (of_decide_eq_true hcountable)
  rw [hstart, hlength]
  refine ⟨?_, by simp⟩
  simp only [List.length_append]
  omega

/-- The first run that is found is that of the first phoneme with units. -/
lemma Holds.unitsOf (h : Holds db d) (hd : d.Storable)
    (hcount : (d.phonemes.flatMap PhonemeEntry.units).length < UInt16.size)
    (hcountable : ∀ r ∈ Image.runs d.phonemes, Image.countable r = true) (first second : Phoneme) :
    (db.unitsOf first second).map RecordedUnit.stored =
      (d.unitsOf first second).map UnitEntry.stored := by
  have hrun : db.runs.find? (fun r => r.first.agrees first Database.lookupMask &&
        r.second.agrees second Database.lookupMask) =
      ((Image.runs d.phonemes).find? fun r => r.2.isFor first second).map unitRun := by
    rw [h.runs, List.find?_map]
    simp only [Function.comp_def, unitRun, isFor_eq]
  have hentry : d.phonemes.find? (fun e => !e.units.isEmpty && e.isFor first second) =
      ((Image.runs d.phonemes).find? fun r => r.2.isFor first second).map Prod.snd := by
    have hentries : (Image.runs d.phonemes).map Prod.snd =
        d.phonemes.filter fun e => !e.units.isEmpty := map_snd_place
    have hfilter : (d.phonemes.filter fun e => !e.units.isEmpty).find? (·.isFor first second) =
        d.phonemes.find? fun e => !e.units.isEmpty && e.isFor first second := by
      rw [List.find?_filter]
      simp only [Bool.decide_and, Bool.decide_eq_true]
    rw [← hfilter, ← hentries, List.find?_map]
    rfl
  rw [Database.unitsOf, hrun, Definition.unitsOf, hentry]
  cases hfind : (Image.runs d.phonemes).find? fun r => r.2.isFor first second with
  | none => rfl
  | some r =>
    have hmem := List.mem_of_find?_eq_some hfind
    have htake := (unitRun_of_mem_runs hcount hmem (hcountable r hmem)).2
    simp only [Option.map_some, Option.getD_some]
    rw [h.units, ← List.map_drop, ← List.map_take, htake, List.map_map]
    refine List.map_congr_left fun u hu => ?_
    have hkept : Kept u.name := by
      refine hd.kept _ (List.mem_append_right _ (List.mem_map_of_mem ?_))
      rw [← htake] at hu
      exact List.mem_of_mem_drop (List.mem_of_mem_take hu)
    rw [Function.comp_apply, RecordedUnit.stored, recordedUnit, hkept.ofString, UnitEntry.stored]

/-- The runs of an index that has been written lie within the units. -/
lemma Holds.checkRuns (h : Holds db d)
    (hcount : (d.phonemes.flatMap PhonemeEntry.units).length < UInt16.size)
    (hcountable : ∀ r ∈ Image.runs d.phonemes, Image.countable r = true) :
    db.checkRuns = .ok db := by
  have hnone : (db.runs.findIdx? fun r =>
      decide (db.units.length < r.start.toNat + r.count.toNat)) = none := by
    rw [List.findIdx?_eq_none_iff, h.runs, h.units, List.length_map]
    intro run hrun
    obtain ⟨r, hr, rfl⟩ := List.mem_map.mp hrun
    simpa using (unitRun_of_mem_runs hcount hr (hcountable r hr)).1
  rw [Database.checkRuns]
  simp only [hnone]

/-- A database that holds a definition says what the definition says. -/
lemma Holds.represents (h : Holds db d) (hd : d.Storable)
    (hcount : (d.phonemes.flatMap PhonemeEntry.units).length < UInt16.size)
    (hcountable : ∀ r ∈ Image.runs d.phonemes, Image.countable r = true) : db.Represents d := by
  have hkept : ∀ s ∈ [d.id, d.name, d.synthesizer, d.author, d.alphabet, d.sampleFormat],
      Bytes.ofString (textOf s) = s := fun s hs => (hd.kept s (List.mem_append_left _ hs)).ofString
  simp only [List.forall_mem_cons] at hkept
  obtain ⟨hid, hname, hsynthesizer, hauthor, halphabet, hsampleFormat, -⟩ := hkept
  exact {
    id := by rw [h.header]; exact hid
    name := by rw [h.header]; exact hname
    synthesizer := by rw [h.header]; exact hsynthesizer
    author := by rw [h.header]; exact hauthor
    alphabet := by rw [h.header]; exact halphabet
    gender := by rw [h.header]; rfl
    volumeScale := by rw [h.header]; rfl
    frequency := by rw [h.header]; rfl
    channels := by rw [h.header]; rfl
    sampleFormat := by rw [h.header]; exact hsampleFormat
    pitch := h.pitch
    durationOf := h.durationOf
    unitsOf := h.unitsOf hd hcount hcountable }

end Lookups

namespace Definition

variable {d : Definition}

/-- Units that have been written can be counted, all of them and those of each phoneme. -/
lemma countable_of_exact (hexact : ∀ plan ∈ d.image, plan.Exact) :
    (d.phonemes.flatMap PhonemeEntry.units).length < UInt16.size ∧
      ∀ r ∈ Image.runs d.phonemes, Image.countable r = true := by
  by_cases hempty : (d.phonemes.flatMap PhonemeEntry.units).isEmpty
  · rw [List.isEmpty_iff] at hempty
    refine ⟨by simp [hempty], fun r hr => ?_⟩
    obtain ⟨before, after, hunits, -⟩ := exists_of_mem_runs hr
    rw [hempty] at hunits
    have hnil : r.2.units = [] := by simp_all
    simp [Image.countable, hnil]
  · have hunits : ∀ plan ∈ Image.units d.phonemes, plan.Exact := fun plan hplan =>
      hexact plan (List.mem_cons_of_mem _ (List.mem_append_right _ hplan))
    rw [Image.units, if_neg hempty] at hunits
    obtain ⟨htable, hindex⟩ := List.forall_mem_cons.mp hunits
    exact ⟨(SectionPlan.counted_of_exact htable).2, (index_of_exact (hindex _ List.mem_cons_self)).1⟩

/-- A counted section has strings behind it or none in it. -/
lemma pooling_counted {tag : SectionTag} {size : UInt32} {pooling : Bool} {count : Nat}
    {values : List Datum} (h : pooling = true ∨ ∀ s, Datum.pooled s ∉ values)
    (hexact : (SectionPlan.counted tag size pooling count values).Exact) :
    (SectionPlan.counted tag size pooling count values).magic ≠ [] ∧
      ((SectionPlan.counted tag size pooling count values).pooling = true ∨
        ∀ s, Datum.pooled s ∉ (SectionPlan.counted tag size pooling count values).body) := by
  have hmagic : tag.bytes ≠ [] := by
    rw [← List.length_pos_iff, SectionTag.length_bytes]
    decide
  rw [(SectionPlan.counted_of_exact hexact).1]
  exact ⟨hmagic, h.imp_right fun hnone s => by simpa using hnone s⟩

/-- No section behind the header but the units has strings, and these stand behind it. -/
lemma pooling_of_mem_image (hexact : ∀ plan ∈ d.image.tail, plan.Exact) : ∀ plan ∈ d.image.tail,
    plan.magic ≠ [] ∧ (plan.pooling = true ∨ ∀ s, Datum.pooled s ∉ plan.body) := by
  intro plan hplan
  have hplan' := hexact plan hplan
  simp only [image, List.tail_cons, List.mem_append] at hplan
  rcases hplan with (hpitch | hdurations) | hunits
  · obtain ⟨p, -, rfl⟩ := List.mem_map.mp hpitch
    exact pooling_counted (.inr (by simp)) hplan'
  · rw [Image.durations] at hdurations
    split at hdurations
    · cases hdurations
    obtain rfl := List.mem_singleton.mp hdurations
    exact pooling_counted (.inr (by simp [Image.duration])) hplan'
  · rw [Image.units] at hunits
    split at hunits
    · cases hunits
    rcases List.mem_cons.mp hunits with rfl | hindex
    · exact pooling_counted (.inl rfl) hplan'
    · obtain rfl := List.mem_singleton.mp hindex
      have hindex := (index_of_exact hplan').2
      rw [hindex] at hplan' ⊢
      exact pooling_counted (.inr (by simp [Image.run])) hplan'

/-- Behind the header the walk finds what the definition says. -/
lemma holds_of_sections {sections : List Section}
    (h : ∀ (β : Type) (f : Section → List β), f .strings = [] →
      sections.flatMap f = (found d).flatMap f) : Holds ⟨headerOf d, .strings :: sections⟩ d := by
  have hrest {β : Type} (f : Section → List β) (hf : f .strings = []) :
      (Section.strings :: sections).flatMap f = (found d).flatMap f := by
    rw [List.flatMap_cons, hf, List.nil_append, h β f hf]
  refine ⟨rfl, ?_, ?_, ?_, ?_⟩
  · rw [Database.pitch, hrest _ rfl, found]
    cases d.pitch <;> split_ifs <;> simp [Section.pitches]
  · rw [Database.durations, hrest _ rfl, found]
    have hnil : (d.phonemes.flatMap PhonemeEntry.durations).isEmpty → d.durations = [] := by
      intro hempty
      rw [← List.length_eq_zero_iff, length_durations, List.length_eq_zero_iff]
      exact List.isEmpty_iff.mp hempty
    cases d.pitch <;> split_ifs with hdurations <;> simp [Section.durationRecords, *]
  · rw [Database.units, hrest _ rfl, found]
    cases d.pitch <;> split_ifs <;> simp_all [Section.recordedUnits]
  · rw [Database.runs, hrest _ rfl, found]
    have hnil : (d.phonemes.flatMap PhonemeEntry.units).isEmpty → Image.runs d.phonemes = [] := by
      intro hempty
      have hunits : ∀ e ∈ d.phonemes, e.units = [] := by simpa using hempty
      have hfilter : d.phonemes.filter (fun e => !e.units.isEmpty) = [] := by simpa using hunits
      rw [Image.runs, hfilter, Text.place_nil]
    cases d.pitch <;> split_ifs <;> simp_all [Section.unitRuns]

/-- A definition whose strings are texts without zero bytes comes back from the database that it is
written as. -/
theorem exists_database_of_write {limit : Option Nat} {data : Array UInt8} (hd : d.Storable)
    (h : d.write limit = (.ok (), data)) :
    ∃ db, Database.load data = .ok db ∧ db.Represents d := by
  obtain ⟨hdata, hsize, hexact⟩ := Writer.run_ok (run_of_assemble h)
  obtain ⟨hcount, hcountable⟩ := countable_of_exact hexact
  rw [show d.image = Image.header d :: d.image.tail from rfl] at hdata hexact
  obtain ⟨hheader, hplans⟩ := List.forall_mem_cons.mp hexact
  let start := Cursor.start data
  let header := Image.header d
  have hrest : start.rest = SectionPlan.allBytes start.position (header :: d.image.tail) := hdata
  rw [SectionPlan.allBytes] at hrest
  have hread : Database.readHeader start =
      (.ok (headerOf d), start.skip (header.magic ++ header.values start.position).length) := by
    refine takes_readHeader hd (fun s hs => ?_) start _ rfl (by
      rw [hrest, SectionPlan.bytes_eq_of_pooling rfl, List.append_assoc]
      rfl)
    exact SectionPlan.refers_of_rest hheader rfl hsize hrest (SectionPlan.mem_strings hs)
  have hbehind : Walk.sections Database.readBody Database.forward_readBody
      (start.skip (header.magic ++ header.values start.position).length) = _ :=
    Walk.sections_behind_values rfl hheader rfl hsize hrest
  have hpooling := pooling_of_mem_image hplans
  have hfits : (start.skip (header.bytes start.position).length).data.size < UInt32.size := hsize
  obtain ⟨sections, hsections, hfound⟩ := Walk.exists_sections_eq rfl (readAs_image hd hplans) hplans
    (fun plan hplan => (hpooling plan hplan).1) (fun plan hplan => (hpooling plan hplan).2) hfits
    (Cursor.rest_skip hrest)
  have hholds := holds_of_sections hfound
  refine ⟨_, ?_, hholds.represents hd hcount hcountable⟩
  rw [Database.load, hread]
  dsimp only
  rw [hbehind, hsections]
  exact hholds.checkRuns hcount hcountable

/-- A voice with a pitch and three phonemes, the second of them without units and the third a pair. -/
def sample : Definition where
  id := Bytes.ofString "v"
  alphabet := Bytes.ofString "features"
  gender := .female
  frequency := 22050
  channels := 1
  pitch := some ⟨Single.one, Single.one, Single.one⟩
  phonemes := [
    ⟨⟨1⟩, .unspecified, [⟨80, 20, .empty⟩, ⟨60, 10, .empty⟩],
      [⟨Bytes.ofString "a1", 0⟩, ⟨Bytes.ofString "a2", 50⟩]⟩,
    ⟨⟨2⟩, .unspecified, [⟨40, 5, .empty⟩], []⟩,
    ⟨⟨1⟩, ⟨2⟩, [], [⟨Bytes.ofString "ab", 10⟩]⟩]

theorem exists_database_of_write_sample : sample.Storable ∧ ∃ data db,
    sample.write none = (.ok (), data) ∧ Database.load data = .ok db ∧ db.Represents sample := by
  have hstrings : sample.strings =
      ["v", "", "", "", "features", "", "a1", "a2", "ab"].map Bytes.ofString := by decide +kernel
  have htext : ∀ s ∈ sample.strings, (Bytes.toString? s).isSome := by
    rw [hstrings, List.forall_mem_map]
    intro t _
    rw [Bytes.toString?_ofString, Option.isSome_some]
  have hstorable : sample.Storable := ⟨by decide +kernel, htext⟩
  have hwritten : ∃ data, sample.write none = (.ok (), data) :=
    exists_assemble (by decide +kernel) (by decide +kernel) (by decide +kernel)
  obtain ⟨data, hwrite⟩ := hwritten
  obtain ⟨db, hload, hdb⟩ := exists_database_of_write hstorable hwrite
  exact ⟨hstorable, data, db, hwrite, hload, hdb⟩

end Definition

end LetterToSound.Voice
