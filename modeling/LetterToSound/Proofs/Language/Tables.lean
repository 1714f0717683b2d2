import Mathlib
import LetterToSound.Language.Database
import LetterToSound.Outcome
import LetterToSound.Proofs.Container.Passage

/-!
# Where the tables of a database stand

The sections of a database that has been loaded follow one another from its header to its end. A table
stands in its section behind the number of its entries, and every entry that is counted has been found
to be good: references to two strings, or a word that refers to a string unless it is zero.
-/

namespace LetterToSound.Language

open Cursor

variable {data : Array UInt8} {c c' : Cursor}

/-- A member of a class stands at an offset: a word that is zero or refers to a string. -/
def HoldsMember (data : Array UInt8) (offset word : Nat) : Prop :=
  HoldsWord data offset word ∧ (word = 0 ∨ ∃ s, HoldsString data word s)

/-- The offset behind the last entry of a table. -/
def Table.stop (t : Table) (size : Nat) : Nat := t.offset + t.entries * size

/-- What the entries of a table hold, one for one. -/
structure Table.Holds {α : Type} (t : Table) (size : Nat) (P : Nat → α → Prop) (xs : List α) :
    Prop where
  length : xs.length = t.entries
  entry : ∀ i (h : i < xs.length), P (t.offset + i * size) xs[i]

namespace Table

variable {α : Type} {t : Table} {size : Nat} {P : Nat → α → Prop} {x : α} {xs : List α}

lemma offset_le_stop (t : Table) (size : Nat) : t.offset ≤ t.stop size := Nat.le_add_right _ _

/-- An entry ends where the table stops at the latest. -/
lemma entry_le_stop {i : Nat} (hi : i < t.entries) : t.offset + i * size + size ≤ t.stop size := by
  rw [stop, Nat.add_assoc, ← Nat.succ_mul]
  exact Nat.add_le_add_left (Nat.mul_le_mul_right _ hi) _

/-- Behind its first entry, a table is a table of the other ones that stops at the same place. -/
lemma Holds.cons (h : t.Holds size P (x :: xs)) :
    P t.offset x ∧ Table.Holds ⟨xs.length, t.offset + size⟩ size P xs ∧
      Table.stop ⟨xs.length, t.offset + size⟩ size = t.stop size := by
  refine ⟨?_, ⟨rfl, fun i hi => ?_⟩, ?_⟩
  · have hentry := h.entry 0 (Nat.succ_pos _)
    rwa [Nat.zero_mul] at hentry
  · have hentry := h.entry (i + 1) (by simpa using hi)
    rwa [Nat.succ_mul, Nat.add_comm _ size, ← Nat.add_assoc] at hentry
  · rw [stop, stop, ← h.length, List.length_cons, Nat.succ_mul]
    simp only
    omega

lemma Holds.add_le_stop (h : t.Holds size P (x :: xs)) : t.offset + size ≤ t.stop size := by
  rw [← h.cons.2.2]
  exact offset_le_stop ⟨xs.length, t.offset + size⟩ size

end Table

/-- A table stands in a section of a tag, behind the number of its entries. -/
structure Table.StandsAt (data : Array UInt8) (tag : SectionTag) (start : Nat) (t : Table) :
    Prop where
  entries : t.entries < UInt16.size
  header : tag.bytes ++ LittleEndian.encode 2 t.entries <+: data.toList.drop start
  offset : t.offset = start + Layout.headerSize

/-- A table stands in a section of a tag, behind the number of its entries and its name. -/
structure NamedTable.StandsAt (data : Array UInt8) (tag : SectionTag) (start : Nat) (t : NamedTable) :
    Prop where
  entries : t.table.entries < UInt16.size
  header : tag.bytes ++ (LittleEndian.encode 2 t.table.entries ++ [t.id]) <+: data.toList.drop start
  offset : t.table.offset = start + Layout.groupHeaderSize

/-- The words of a class are more bytes than there are words. -/
lemma NamedTable.StandsAt.entries_lt_size {start : Nat} {t : NamedTable}
    (h : t.StandsAt data .classDef start) (hin : t.table.stop Layout.classMemberSize ≤ data.size) :
    t.table.entries < data.size := by
  rw [Table.stop, h.offset, Layout.groupHeaderSize, Layout.classMemberSize,
    Layout.stringReferenceSize] at hin
  omega

/-- A section stands in the data from one offset to another one. -/
def Section.Stands (data : Array UInt8) (start stop : Nat) : Section → Prop
  | .strings => SectionTag.strings.bytes <+: data.toList.drop start ∧
      HoldsWord data (start + 3) stop ∧ start + Layout.stringTableHeaderSize ≤ stop
  | .conditionals cs => SectionTag.conditionals.bytes ++ LittleEndian.encode 2 cs.length <+:
        data.toList.drop start ∧
      stop = start + Layout.headerSize + cs.length * Layout.conditionalSize
  | .letterClass t => t.StandsAt data .classDef start ∧
      stop = t.table.stop Layout.classMemberSize ∧
      ∃ words, t.table.Holds Layout.classMemberSize (HoldsMember data) words
  | .letterRules t => t.StandsAt data .letterToPhoneme start ∧
      stop = t.table.stop Layout.ruleSize ∧
      ∃ pairs, t.table.Holds Layout.ruleSize (HoldsPair data) pairs
  | .spellingRules t => t.StandsAt data .spelling start ∧
      stop = t.table.stop Layout.ruleSize ∧
      ∃ pairs, t.table.Holds Layout.ruleSize (HoldsPair data) pairs
  | .dictionary t => t.StandsAt data .dictionary start ∧
      stop = t.stop Layout.dictionaryEntrySize ∧
      ∃ pairs, t.Holds Layout.dictionaryEntrySize (HoldsPair data) pairs

/-- Sections stand in the data one behind the other, from one offset to another one. -/
inductive Laid (data : Array UInt8) : Nat → List Section → Nat → Prop
  | nil (start : Nat) : Laid data start [] start
  | cons {start middle stop : Nat} {s : Section} {ss : List Section} (hs : s.Stands data start middle)
      (hlt : start < middle) (rest : Laid data middle ss stop) : Laid data start (s :: ss) stop

namespace Laid

variable {start stop : Nat} {ss : List Section} {s : Section}

lemma le (h : Laid data start ss stop) : start ≤ stop := by
  induction h with
  | nil start => exact Nat.le_refl _
  | cons hs hlt rest ih => exact hlt.le.trans ih

/-- Every one of the sections stands between the two offsets. -/
lemma exists_of_mem (h : Laid data start ss stop) (hs : s ∈ ss) :
    ∃ i j, start ≤ i ∧ j ≤ stop ∧ s.Stands data i j := by
  induction h with
  | nil start => cases hs
  | @cons start middle stop s' ss hs' hlt rest ih =>
    rcases List.mem_cons.mp hs with rfl | hs
    · exact ⟨start, middle, Nat.le_refl _, rest.le, hs'⟩
    · obtain ⟨i, j, hi, hj, hstands⟩ := ih hs
      exact ⟨i, j, hlt.le.trans hi, hj, hstands⟩

end Laid

namespace Database

lemma checkMember_ok (h : checkMember c = (.ok (), c')) :
    c' = c.skip Layout.classMemberSize ∧ ∃ word, HoldsMember c.data c.position word := by
  obtain ⟨word, middle, hword, hcheck⟩ := Read.exists_of_bind h
  obtain ⟨rfl, hholds⟩ := Read.u32_ok hword
  split at hcheck
  · rename_i hzero
    cases hcheck
    exact ⟨rfl, word.toNat, hholds, .inl (by simp [hzero])⟩
  · obtain ⟨s, hs⟩ := Read.exists_of_discard hcheck
    obtain ⟨rfl, hstring⟩ := Read.stringAt_ok hs
    exact ⟨rfl, word.toNat, hholds, .inr ⟨s, hstring⟩⟩

lemma checkPair_ok (h : checkPair c = (.ok (), c')) :
    c' = c.skip Layout.ruleSize ∧ ∃ p, HoldsPair c.data c.position p := by
  obtain ⟨⟨⟩, middle, hfirst, hsecond⟩ := Read.exists_of_bind h
  obtain ⟨s, hs⟩ := Read.exists_of_discard hfirst
  obtain ⟨t, ht⟩ := Read.exists_of_discard hsecond
  obtain ⟨rfl, hpattern⟩ := Read.reference_ok hs
  obtain ⟨rfl, hreplacement⟩ := Read.reference_ok ht
  exact ⟨rfl, (s, t), hpattern, hreplacement⟩

lemma readCondition_ok {x : Condition} (h : readCondition c = (.ok x, c')) :
    c' = c.skip Layout.conditionalSize := by
  obtain ⟨start, middle, hposition, h⟩ := Read.exists_of_bind h
  cases hposition
  obtain ⟨id, middle, hid, h⟩ := Read.exists_of_bind h
  obtain ⟨polarity, middle, hpolarity, h⟩ := Read.exists_of_bind h
  obtain ⟨predicate, middle, hpredicate, h⟩ := Read.exists_of_bind h
  obtain ⟨value, middle, hvalue, h⟩ := Read.exists_of_bind h
  obtain ⟨rfl, -⟩ := Read.u8_ok hid
  obtain ⟨rfl, -⟩ := Read.u8_ok hpolarity
  obtain ⟨rfl, -⟩ := Read.u8_ok hpredicate
  obtain ⟨rfl, -⟩ := Read.reference_ok hvalue
  exact (congrArg Prod.snd h).symm

/-- What every entry of a table is checked for holds of the whole table. -/
lemma exists_holds {α : Type} {check : Read Unit} {size : Nat}
    {P : Array UInt8 → Nat → α → Prop} {n : Nat}
    (hcheck : ∀ d d', check d = (.ok (), d') → d' = d.skip size ∧ ∃ a, P d.data d.position a)
    (h : (discard (Read.times n check) : Read Unit) c = (.ok (), c')) :
    c' = c.skip (n * size) ∧ ∃ xs, Table.Holds ⟨n, c.position⟩ size (P c.data) xs := by
  obtain ⟨units, hunits⟩ := Read.exists_of_discard h
  obtain ⟨hc', hlength, hall⟩ := Read.times_ok (P := fun i _ => ∃ a, P c.data i a)
    (fun d a d' hdata hd => by rw [← hdata]; exact hcheck d d' hd) hunits
  rw [hlength] at hall
  choose f hf using hall
  exact ⟨hc', List.ofFn fun i : Fin n => f i i.isLt, by simp, fun i hi => by simpa using hf i _⟩

lemma readNamedTable_ok {α : Type} {check : Read Unit} {size : Nat} {t : NamedTable}
    {P : Array UInt8 → Nat → α → Prop}
    (hcheck : ∀ d d', check d = (.ok (), d') → d' = d.skip size ∧ ∃ a, P d.data d.position a)
    (h : readNamedTable check c = (.ok t, c')) :
    t.table.entries < UInt16.size ∧ t.table.offset = c.position + 3 ∧
      LittleEndian.encode 2 t.table.entries ++ [t.id] <+: c.rest ∧
      c' = c.skip (3 + t.table.entries * size) ∧ ∃ xs, t.table.Holds size (P c.data) xs := by
  obtain ⟨entries, middle, hentries, h⟩ := Read.exists_of_bind h
  obtain ⟨id, middle, hid, h⟩ := Read.exists_of_bind h
  obtain ⟨offset, middle, hoffset, h⟩ := Read.exists_of_bind h
  obtain ⟨⟨⟩, middle, htimes, h⟩ := Read.exists_of_bind h
  cases h
  cases hoffset
  obtain ⟨rfl, hcount⟩ := Read.u16_ok hentries
  obtain ⟨rfl, hname⟩ := Read.u8_ok hid
  obtain ⟨rfl, hholds⟩ := exists_holds hcheck htimes
  exact ⟨entries.toNat_lt, rfl, prefix_append hcount (by simp) hname, by simp, hholds⟩

lemma readTable_ok {α : Type} {check : Read Unit} {size : Nat} {t : Table}
    {P : Array UInt8 → Nat → α → Prop}
    (hcheck : ∀ d d', check d = (.ok (), d') → d' = d.skip size ∧ ∃ a, P d.data d.position a)
    (h : readTable check c = (.ok t, c')) :
    t.entries < UInt16.size ∧ t.offset = c.position + 2 ∧
      LittleEndian.encode 2 t.entries <+: c.rest ∧
      c' = c.skip (2 + t.entries * size) ∧ ∃ xs, t.Holds size (P c.data) xs := by
  obtain ⟨entries, middle, hentries, h⟩ := Read.exists_of_bind h
  obtain ⟨offset, middle, hoffset, h⟩ := Read.exists_of_bind h
  obtain ⟨⟨⟩, middle, htimes, h⟩ := Read.exists_of_bind h
  cases h
  cases hoffset
  obtain ⟨rfl, hcount⟩ := Read.u16_ok hentries
  obtain ⟨rfl, hholds⟩ := exists_holds hcheck htimes
  exact ⟨entries.toNat_lt, rfl, hcount, by simp, hholds⟩

variable {tag : SectionTag} {t : NamedTable}

/-- A table with a name that has been read behind the tag of its section stands in the section. -/
lemma standsAt_of_readNamedTable {α : Type} {check : Read Unit} {size : Nat}
    {P : Array UInt8 → Nat → α → Prop}
    (hcheck : ∀ d d', check d = (.ok (), d') → d' = d.skip size ∧ ∃ a, P d.data d.position a)
    (htag : tag.bytes <+: c.rest) (h : readNamedTable check (c.skip 3) = (.ok t, c')) :
    c'.data = c.data ∧ t.StandsAt c.data tag c.position ∧ c'.position = t.table.stop size ∧
      ∃ xs, t.table.Holds size (P c.data) xs := by
  obtain ⟨hentries, hoffset, hprefix, rfl, hholds⟩ := readNamedTable_ok hcheck h
  refine ⟨rfl, ⟨hentries, prefix_append htag (SectionTag.length_bytes tag) hprefix, hoffset⟩, ?_,
    hholds⟩
  rw [Table.stop, hoffset, position_skip, position_skip]
  omega

/-- A section that has been read stands where it has been read. -/
lemma stands_of_readSection {s : Section} (h : Walk.readSection readBody c = (.ok s, c')) :
    c'.data = c.data ∧ s.Stands c.data c.position c'.position := by
  obtain ⟨tag, middle, htag, hbody⟩ := Read.exists_of_bind h
  obtain ⟨rfl, hprefix⟩ := Read.tag_ok htag
  cases tag with
  | strings =>
    obtain ⟨⟨⟩, middle, hskip, hpure⟩ := Read.exists_of_bind hbody
    cases hpure
    obtain ⟨stop, hword, hle, -, rfl⟩ := Read.skipStrings_ok hskip
    exact ⟨rfl, hprefix, hword, hle⟩
  | conditionals =>
    obtain ⟨entries, middle, hentries, hbody⟩ := Read.exists_of_bind hbody
    obtain ⟨cs, middle, htimes, hpure⟩ := Read.exists_of_bind hbody
    cases hpure
    obtain ⟨rfl, hcount⟩ := Read.u16_ok hentries
    obtain ⟨rfl, hlength, -⟩ := Read.times_ok (P := fun _ _ => True)
      (fun d a d' _ hd => ⟨readCondition_ok hd, trivial⟩) htimes
    refine ⟨rfl, ?_, ?_⟩
    · rw [hlength]
      exact prefix_append hprefix rfl hcount
    · rw [hlength]
      rfl
  | classDef =>
    obtain ⟨t, middle, htable, hpure⟩ := Read.exists_of_bind hbody
    cases hpure
    exact standsAt_of_readNamedTable (fun _ _ => checkMember_ok) hprefix htable
  | letterToPhoneme =>
    obtain ⟨t, middle, htable, hpure⟩ := Read.exists_of_bind hbody
    cases hpure
    exact standsAt_of_readNamedTable (fun _ _ => checkPair_ok) hprefix htable
  | spelling =>
    obtain ⟨t, middle, htable, hpure⟩ := Read.exists_of_bind hbody
    cases hpure
    exact standsAt_of_readNamedTable (fun _ _ => checkPair_ok) hprefix htable
  | dictionary =>
    obtain ⟨t, middle, htable, hpure⟩ := Read.exists_of_bind hbody
    cases hpure
    obtain ⟨hentries, hoffset, hcount, rfl, hholds⟩ := readTable_ok (fun _ _ => checkPair_ok) htable
    refine ⟨rfl, ⟨hentries, prefix_append hprefix rfl hcount, hoffset⟩, ?_, hholds⟩
    rw [Table.stop, hoffset, position_skip, position_skip, Layout.dictionaryEntrySize,
      Layout.ruleSize]
    omega
  | durations => cases hbody
  | units => cases hbody
  | phonemeUnits => cases hbody
  | pitch => cases hbody

/-- The sections that a walk passes stand one behind the other. -/
lemma laid_of_passes {ss : List Section} (h : Walk.Passes readBody c ss c') :
    Laid c.data c.position ss c'.position := by
  induction h with
  | stop c => exact .nil c.position
  | read hin hread rest ih =>
    obtain ⟨hdata, hstands⟩ := stands_of_readSection hread
    rw [hdata] at ih
    exact .cons hstands (Walk.position_readSection forward_readBody hread).2.1 ih

lemma forward_readHeader : readHeader.Forward :=
  (Read.Forward.header _ _).bind fun _ => .bind .text fun _ => .bind .text fun _ => .pure _

/-- The header has a fixed size. -/
lemma readHeader_ok {header : String × String} (h : readHeader c = (.ok header, c')) :
    c' = c.skip Layout.languageHeaderSize := by
  obtain ⟨⟨⟩, middle, hheader, h⟩ := Read.exists_of_bind h
  obtain ⟨locale, middle, hlocale, h⟩ := Read.exists_of_bind h
  obtain ⟨alphabet, middle, halphabet, h⟩ := Read.exists_of_bind h
  cases h
  obtain rfl := Read.header_ok hheader
  obtain rfl := Read.text_ok hlocale
  obtain rfl := Read.text_ok halphabet
  rfl

/-- The sections of a database that has been loaded take up all that is behind its header. -/
theorem laid_of_load {db : Database} (h : load data = .ok db) :
    db.data = data ∧ Laid data Layout.languageHeaderSize db.sections data.size := by
  unfold load at h
  split at h
  · cases h
  · rename_i locale alphabet c hheader
    obtain ⟨-, -, hin⟩ := forward_readHeader _ _ _ hheader
    obtain rfl := readHeader_ok hheader
    obtain ⟨sections, hsections, rfl⟩ := Outcome.map_eq_ok_iff.mp h
    obtain ⟨c', hpasses, hend⟩ := Walk.exists_passes_of_sections hsections
    refine ⟨rfl, ?_⟩
    obtain ⟨hdata, -, hle⟩ := hpasses.progress forward_readBody
    have hstop : c'.position = data.size :=
      Nat.le_antisymm (hle (hin (Nat.zero_le _))) (by rwa [hdata] at hend)
    have hlaid := laid_of_passes hpasses
    rwa [hstop, position_skip] at hlaid

end Database

end LetterToSound.Language
