import Mathlib
import LetterToSound.Proofs.Container.Truncation
import LetterToSound.Proofs.Language.Written

/-!
# Databases that have been cut off

A database may be cut off anywhere: in a table, before the strings of the table or in the middle of
them. What is left may still be loaded, but not with a table that has been changed. Loading has found
every entry that it counts and every string that an entry refers to, and they stand in all of the data
as they stand in what is left. Only the members of a class are looked for until a zero word comes, so
what counts there is that the word has been written as an entry of the class.
-/

namespace LetterToSound.Language

open Cursor

namespace Table

variable {α : Type} {t : Table} {size : Nat} {P Q : Nat → α → Prop} {xs : List α}

lemma Holds.imp (h : t.Holds size P xs) (hpq : ∀ offset x, P offset x → Q offset x) :
    t.Holds size Q xs :=
  ⟨h.length, fun i hi => hpq _ _ (h.entry i hi)⟩

end Table

lemma HoldsMember.of_beginning {head data : Array UInt8} {offset word : Nat}
    (h : HoldsMember head offset word) (hfront : head.toList <+: data.toList) :
    HoldsMember data offset word :=
  ⟨h.1.of_beginning hfront, h.2.imp_right fun ⟨s, hs⟩ => ⟨s, hs.of_beginning hfront⟩⟩

namespace Database

section Extends

lemma extends_readCondition : readCondition.Extends :=
  .bind .position fun _ => .bind .u8 fun _ => .bind .u8 fun _ => .bind .u8 fun _ =>
    .bind .reference fun _ => .lift _

lemma extends_checkMember : checkMember.Extends :=
  .bind .u32 fun offset => by
    split
    · exact .pure _
    · exact .discard (.stringAt _)

lemma extends_checkPair : checkPair.Extends :=
  .bind (.discard .reference) fun _ => .discard .reference

lemma extends_readNamedTable {check : Read Unit} (h : check.Extends) :
    (readNamedTable check).Extends :=
  .bind .u16 fun _ => .bind .u8 fun _ => .bind .position fun _ =>
    .bind (.discard (h.times _)) fun _ => .pure _

lemma extends_readTable {check : Read Unit} (h : check.Extends) : (readTable check).Extends :=
  .bind .u16 fun _ => .bind .position fun _ => .bind (.discard (h.times _)) fun _ => .pure _

lemma extends_readBody (tag : SectionTag) : (readBody tag).Extends := by
  cases tag with
  | strings => exact .bind .skipStrings fun _ => .pure _
  | conditionals => exact .bind .u16 fun _ => .bind (extends_readCondition.times _) fun _ => .pure _
  | classDef => exact .bind (extends_readNamedTable extends_checkMember) fun _ => .pure _
  | letterToPhoneme => exact .bind (extends_readNamedTable extends_checkPair) fun _ => .pure _
  | spelling => exact .bind (extends_readNamedTable extends_checkPair) fun _ => .pure _
  | dictionary => exact .bind (extends_readTable extends_checkPair) fun _ => .pure _
  | _ => exact .throw _

lemma extends_readHeader : readHeader.Extends :=
  .bind (.header _ _) fun _ => .bind .text fun _ => .bind .text fun _ => .pure _

end Extends

section Load

variable {head data : Array UInt8} {db db' : Database}

/-- A database that has been loaded is what its header and the walk behind it give. -/
lemma exists_sections_of_load (h : load data = .ok db) :
    ∃ c, readHeader (Cursor.start data) = (.ok (db.locale, db.alphabet), c) ∧
      Walk.sections readBody forward_readBody c = .ok db.sections := by
  unfold load at h
  split at h
  · cases h
  · rename_i locale alphabet c hheader
    obtain ⟨sections, hsections, rfl⟩ := Outcome.map_eq_ok_iff.mp h
    exact ⟨c, hheader, hsections⟩

/-- What can be loaded of the beginning of a database has the same header, and its sections are the
first ones. -/
lemma sections_of_load (hfront : head.toList <+: data.toList) (hhead : load head = .ok db')
    (hdata : load data = .ok db) :
    db'.locale = db.locale ∧ db'.alphabet = db.alphabet ∧ db'.sections <+: db.sections := by
  obtain ⟨c', hheader', hsections'⟩ := exists_sections_of_load hhead
  obtain ⟨c, hheader, hsections⟩ := exists_sections_of_load hdata
  obtain ⟨hsame, hextends⟩ := extends_readHeader data _ _ _ hfront hheader'
  obtain ⟨hboth, rfl⟩ := Prod.mk.inj (hextends.symm.trans hheader)
  obtain ⟨hlocale, halphabet⟩ := Prod.mk.inj (Except.ok.inj hboth)
  obtain ⟨stop, hpasses, -⟩ := Walk.exists_passes_of_sections hsections'
  have hmore : Walk.Passes readBody { c' with data } db'.sections { stop with data } :=
    hpasses.of_beginning extends_readBody (by rwa [hsame])
  exact ⟨hlocale, halphabet, hmore.prefix_of_sections hsections⟩

/-- The rules of a group are the same in all of the data. -/
lemma rules_of_beginning (hfront : db'.data.toList <+: db.data.toList) {g : NamedTable}
    (h : ∃ pairs, g.table.Holds Layout.ruleSize (HoldsPair db'.data) pairs) :
    db'.rules g = db.rules g := by
  obtain ⟨pairs, hpairs⟩ := h
  have hmore := hpairs.imp fun _ _ hp => hp.of_beginning hfront
  rw [rules_of_holds hpairs, rules_of_holds hmore]

lemma entries_of_beginning (hfront : db'.data.toList <+: db.data.toList) {t : Table}
    (h : ∃ pairs, t.Holds Layout.dictionaryEntrySize (HoldsPair db'.data) pairs) :
    db'.entries t = db.entries t := by
  obtain ⟨pairs, hpairs⟩ := h
  have hmore := hpairs.imp fun _ _ hp => hp.of_beginning hfront
  rw [entries_of_holds hpairs, entries_of_holds hmore]

/-- The members of a class are the same in all of the data if there is a zero word among them. -/
lemma membersFrom_of_beginning (hfront : db'.data.toList <+: db.data.toList) {c : NamedTable}
    {words : List Nat}
    (hwords : c.table.Holds Layout.classMemberSize (HoldsMember db'.data) words)
    (hroom : c.table.entries < db'.data.size) {i : Nat} (hi : i < c.table.entries)
    (hzero : HoldsWord db.data (c.table.offset + i * Layout.classMemberSize) 0) :
    db'.membersFrom [] c.table.offset = db.membersFrom [] c.table.offset := by
  obtain ⟨strings, hstrings⟩ := exists_strings hwords
  have hmore := hwords.imp fun _ _ hw => hw.of_beginning hfront
  have hstrings' := hstrings.imp fun _ _ hs => hs.of_beginning hfront
  have hroom' : c.table.entries < db.data.size := hroom.trans_le (by simpa using hfront.length_le)
  have hlt : i < words.length := hi.trans_eq hwords.length.symm
  have hmem : 0 ∈ words :=
    List.mem_iff_getElem.mpr ⟨i, hlt, (hmore.entry i hlt).1.unique hzero⟩
  rw [membersFrom_of_holds hwords hstrings hroom, if_pos hmem,
    membersFrom_of_holds hmore hstrings' hroom', if_pos hmem]

end Load

/-- A beginning of sections has all that those of a tag give, or none of them, if there is no more than
one of the tag. -/
lemma flatMap_of_count {α : Type} {tag : SectionTag} {f : Section → List α} {xs ys : List Section}
    (hf : ∀ s, s.tag ≠ tag → f s = []) (hfront : xs <+: ys)
    (hcount : (ys.map Section.tag).count tag ≤ 1) :
    xs.flatMap f = ys.flatMap f ∨ xs.flatMap f = [] ∧ tag ∉ xs.map Section.tag := by
  obtain ⟨zs, rfl⟩ := hfront
  have hnone (ss : List Section) (hss : tag ∉ ss.map Section.tag) : ss.flatMap f = [] :=
    List.flatMap_eq_nil_iff.mpr fun s hs => hf s fun htag => hss (htag ▸ List.mem_map_of_mem hs)
  by_cases hxs : tag ∈ xs.map Section.tag
  · have hpos := List.count_pos_iff.mpr hxs
    rw [List.map_append, List.count_append] at hcount
    have hzs : (zs.map Section.tag).count tag = 0 := by omega
    rw [List.flatMap_append, hnone zs (List.count_eq_zero.mp hzs), List.append_nil]
    exact .inl rfl
  · exact .inr ⟨hnone xs hxs, hxs⟩

/-- A database that begins like another one. Its header is the same and its sections are the first ones,
each with all that it gives: conditionals and dictionary if there is a section of them, the members of
the classes and the rules of the groups that there are tables of. -/
structure Begins (db' db : Database) : Prop where
  locale : db'.locale = db.locale
  alphabet : db'.alphabet = db.alphabet
  sections : db'.sections <+: db.sections
  conditions : db'.conditions = db.conditions ∨
    db'.conditions = [] ∧ .conditionals ∉ db'.sections.map Section.tag
  classIds : db'.classIds <+: db.classIds
  members : ∀ id ∈ db'.classIds, db'.members id = db.members id
  members_undefined : ∀ id ∉ db'.classIds, db'.members id = []
  letterGroups : (db'.letterGroups.map fun g => (g, db'.rules g)) <+:
    db.letterGroups.map fun g => (g, db.rules g)
  spellingGroups : (db'.spellingGroups.map fun g => (g, db'.rules g)) <+:
    db.spellingGroups.map fun g => (g, db.rules g)
  dictionary : db'.dictionary = db.dictionary ∨
    db'.dictionary = [] ∧ .dictionary ∉ db'.sections.map Section.tag

section Begins

variable {head data : Array UInt8} {db db' : Database}

lemma conditions_of_beginning (hregular : db.Regular) (hsections : db'.sections <+: db.sections) :
    db'.conditions = db.conditions ∨
      db'.conditions = [] ∧ .conditionals ∉ db'.sections.map Section.tag :=
  flatMap_of_count (fun _ hs => Section.conditions_of_tag_ne hs) hsections hregular.conditionals

lemma dictionaries_of_beginning (hregular : db.Regular) (hsections : db'.sections <+: db.sections) :
    db'.dictionaries = db.dictionaries ∨
      db'.dictionaries = [] ∧ .dictionary ∉ db'.sections.map Section.tag := by
  rw [dictionaries, dictionaries, List.filterMap_eq_flatMap_toList, List.filterMap_eq_flatMap_toList]
  refine flatMap_of_count (fun s hs => ?_) hsections hregular.dictionary
  rw [Section.dictionary?_of_tag_ne hs, Option.toList_none]

/-- A class that there is a table of has all its members. -/
lemma members_of_beginning (hregular : db.Regular) (hfront : db'.data.toList <+: db.data.toList)
    (hload : load head = .ok db') (hclasses : db'.classTables <+: db.classTables) {id : UInt8}
    (hid : id ∈ db'.classIds) : db'.members id = db.members id := by
  obtain ⟨t, ht, rfl⟩ := List.mem_map.mp hid
  have hnodup : db'.classIds.Nodup := hregular.classIds.sublist (hclasses.map _).sublist
  have hmem := hclasses.subset ht
  obtain ⟨start, stop, hin, hstands, rfl, words, hwords⟩ :=
    exists_stands_of_load hload Section.letterClass?_eq_some_iff ht
  obtain ⟨i, hi, hzero⟩ := hregular.zero t hmem
  rw [members, members, classTable?_of_mem hnodup ht, classTable?_of_mem hregular.classIds hmem]
  exact membersFrom_of_beginning hfront hwords (hstands.entries_lt_size hin) hi hzero

/-- What can be loaded of the beginning of a regular database begins like it. -/
theorem begins_of_load (hregular : db.Regular) (hfront : head.toList <+: data.toList)
    (hhead : load head = .ok db') (hdata : load data = .ok db) : db'.Begins db := by
  obtain ⟨hlocale, halphabet, hsections⟩ := sections_of_load hfront hhead hdata
  obtain ⟨rfl, -⟩ := laid_of_load hhead
  obtain ⟨rfl, -⟩ := laid_of_load hdata
  have hclasses : db'.classTables <+: db.classTables := hsections.filterMap _
  have hgroups {tables tables' : List NamedTable} (htables : tables' <+: tables)
      (hrules : ∀ g ∈ tables', db'.rules g = db.rules g) :
      (tables'.map fun g => (g, db'.rules g)) <+: tables.map fun g => (g, db.rules g) := by
    rw [List.map_congr_left fun g hg => congrArg (Prod.mk g) (hrules g hg)]
    exact htables.map _
  have hdictionary : db'.dictionary = db'.dictionaries.flatMap db.entries := by
    refine List.flatMap_congr fun t ht => ?_
    obtain ⟨start, stop, -, hstands, -, hholds⟩ :=
      exists_stands_of_load hhead Section.dictionary?_eq_some_iff ht
    exact entries_of_beginning hfront hholds
  refine ⟨hlocale, halphabet, hsections, conditions_of_beginning hregular hsections, hclasses.map _,
    fun id hid => members_of_beginning hregular hfront hhead hclasses hid,
    fun id hid => members_of_not_mem hid, hgroups (hsections.filterMap _) fun g hg => ?_,
    hgroups (hsections.filterMap _) fun g hg => ?_, ?_⟩
  · obtain ⟨start, stop, -, hstands, -, hholds⟩ :=
      exists_stands_of_load hhead Section.letterRules?_eq_some_iff hg
    exact rules_of_beginning hfront hholds
  · obtain ⟨start, stop, -, hstands, -, hholds⟩ :=
      exists_stands_of_load hhead Section.spellingRules?_eq_some_iff hg
    exact rules_of_beginning hfront hholds
  · rw [hdictionary]
    refine (dictionaries_of_beginning hregular hsections).imp (fun hsame => ?_) fun hnone => ?_
    · rw [hsame, dictionary]
    · exact ⟨by rw [hnone.1, List.flatMap_nil], hnone.2⟩

end Begins

end Database

namespace Definition

variable {source : Bytes} {data : Array UInt8} {db : Database}

/-- The database that a source is compiled to may be cut off anywhere. If what is left can be loaded at
all, it has the same header and the first of the tables, and each of them is the same as before. -/
theorem begins_of_compile (hcompile : compile source = .ok data)
    (hload : Database.load data = .ok db) (n : Nat) :
    (∃ e, Database.load (data.extract 0 n) = .error e) ∨
      ∃ db', Database.load (data.extract 0 n) = .ok db' ∧ db'.Begins db := by
  have hfront : (data.extract 0 n).toList <+: data.toList := by
    rw [Array.toList_extract, List.extract_eq_take_drop]
    exact List.take_prefix _ _
  cases hhead : Database.load (data.extract 0 n) with
  | error e => exact .inl ⟨e, rfl⟩
  | ok db' =>
    have hregular := regular_of_compile hcompile hload
    exact .inr ⟨db', rfl, Database.begins_of_load hregular hfront hhead hload⟩

/-- A definition that has an alphabet and no more. -/
def headerDefinition : Definition := ⟨[], Bytes.ofString "xsampa", [], [], [], [], []⟩

lemma exists_load_of_headerDefinition : ∃ data db, headerDefinition.write none = (.ok (), data) ∧
    Database.load data = .ok db := by
  have hstorable : headerDefinition.Storable := ⟨by decide, by decide, by decide, by decide⟩
  have hreadable : headerDefinition.Readable :=
    ⟨⟨"", by decide⟩, ⟨"xsampa", Bytes.toString?_ofString _⟩, fun c hc => by cases hc⟩
  obtain ⟨data, hwrite⟩ : ∃ data, headerDefinition.write none = (.ok (), data) :=
    exists_write (by decide +kernel) (by decide +kernel) (by decide +kernel)
  obtain ⟨db, hload, -⟩ := exists_load_of_write hstorable hreadable hwrite
  exact ⟨data, db, hwrite, hload⟩

/-- Cut off behind its header and the strings of it, the database of the sample can still be loaded. -/
theorem begins_of_compile_sample : ∃ data db, compile sampleSource = .ok data ∧
    Database.load data = .ok db ∧ ∃ n < data.size, ∃ db',
      Database.load (data.extract 0 n) = .ok db' ∧ db'.Begins db := by
  obtain ⟨data, db, hcompile, hload, -⟩ := exists_load_of_sampleSource
  obtain ⟨d, hparse, hwrite⟩ := exists_of_compile hcompile
  obtain rfl : d = sampleDefinition := Except.ok.inj (hparse.symm.trans parse_sampleSource)
  obtain ⟨head, db', hwrite', hload'⟩ := exists_load_of_headerDefinition
  obtain ⟨hdata, -⟩ := Writer.run_ok (run_of_assemble hwrite)
  obtain ⟨hhead, -⟩ := Writer.run_ok (run_of_assemble hwrite')
  have hfront : ∃ b rest, data.toList = head.toList ++ b :: rest := by
    rw [hdata, hhead]
    exact ⟨_, _, rfl⟩
  obtain ⟨b, rest, hfront⟩ := hfront
  have hcut : data.extract 0 head.size = head := by
    apply Array.toList_inj.mp
    rw [Array.toList_extract, List.extract_eq_take_drop, hfront]
    simp
  have hlt : head.size < data.size := by
    rw [← Array.length_toList, ← Array.length_toList, hfront]
    simp
  refine ⟨data, db, hcompile, hload, head.size, hlt, ?_⟩
  rcases begins_of_compile hcompile hload head.size with ⟨e, herror⟩ | hbegins
  · rw [hcut, hload'] at herror
    cases herror
  · exact hbegins

end Definition

end LetterToSound.Language
