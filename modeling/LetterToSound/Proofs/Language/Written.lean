import Mathlib
import LetterToSound.Proofs.Language.Accessors
import LetterToSound.Proofs.Language.Kept

/-!
# The sections that parts are written as

Each section that a walk finds in a database that has been written stands where one of the parts has
been written, in the order of the parts and with the strings of the part behind it. So in a database
that a source is compiled to there is at most one section of conditionals and one dictionary, and every
class has a table of its own, which ends with a word that is zero and is counted among the entries.
-/

namespace LetterToSound.Language

open Cursor

namespace Section

/-- The tag that a section is read behind. -/
def tag : Section → SectionTag
  | strings => .strings
  | conditionals _ => .conditionals
  | letterClass _ => .classDef
  | letterRules _ => .letterToPhoneme
  | spellingRules _ => .spelling
  | dictionary _ => .dictionary

variable {s : Section}

lemma conditions_of_tag_ne (h : s.tag ≠ .conditionals) : s.conditions = [] := by
  cases s with
  | conditionals cs => exact absurd rfl h
  | _ => rfl

lemma dictionary?_of_tag_ne (h : s.tag ≠ .dictionary) : s.dictionary? = none := by
  cases s with
  | dictionary t => exact absurd rfl h
  | _ => rfl

end Section

/-- A section that has been read where a part is written. -/
def Written (data : Array UInt8) (s : Section) (p : Part) : Prop :=
  p.plan.Exact ∧ ∃ (c c' : Cursor) (ys : Bytes), c.data = data ∧
    c.rest = p.plan.bytes c.position ++ ys ∧ Walk.readSection Database.readBody c = (.ok s, c')

/-- What a walk through written parts finds is a section for each part, each with the strings behind
it. -/
lemma exists_written {c : Cursor} {ps : List Part} {sections : List Section}
    (hps : ∀ p ∈ ps, p.Numbered) (hexact : ∀ p ∈ ps, p.plan.Exact)
    (hsize : c.data.size < UInt32.size)
    (h : c.rest = SectionPlan.allBytes c.position (ps.map Part.plan))
    (hwalk : Database.walk c = .ok sections) :
    ∃ found, sections = found.flatMap (fun s => [s, .strings]) ∧
      List.Forall₂ (Written c.data) found ps := by
  induction ps generalizing c sections with
  | nil =>
    have hend : c.data.size ≤ c.position := by
      simpa [rest, SectionPlan.allBytes, List.drop_eq_nil_iff] using h
    rw [Database.walk, Walk.sections_of_end hend] at hwalk
    cases hwalk
    exact ⟨[], rfl, .nil⟩
  | cons p ps ih =>
    have hp := hexact p List.mem_cons_self
    have hpooling : p.plan.pooling = true := by rw [(Part.plan_of_exact hp).1]
    rw [List.map_cons, SectionPlan.allBytes] at h
    obtain ⟨hok, herror⟩ := Part.readSection_plan (hps p List.mem_cons_self) hp hsize h
    have hbehind := walk_behind_values hp hpooling hsize h
    have hlt := Walk.position_lt_of_rest h (Part.bytes_ne_nil hp c.position)
    cases htexts : p.cut.texts with
    | error e =>
      rw [Database.walk, Walk.sections_of_error hlt (herror e htexts)] at hwalk
      cases hwalk
    | ok conditions =>
      obtain ⟨s, hread, -⟩ := hok conditions htexts
      rw [Database.walk, Walk.sections_of_ok hlt hread, ← Database.walk, hbehind] at hwalk
      obtain ⟨behind, hmore, rfl⟩ := Outcome.map_eq_ok_iff.mp hwalk
      obtain ⟨rest, hrest, rfl⟩ := Outcome.map_eq_ok_iff.mp hmore
      have hfits : (c.skip (p.plan.bytes c.position).length).data.size < UInt32.size := hsize
      obtain ⟨found, rfl, hfound⟩ := ih (fun q hq => hps q (List.mem_cons_of_mem p hq))
        (fun q hq => hexact q (List.mem_cons_of_mem p hq)) hfits (rest_skip h) hrest
      exact ⟨s :: found, rfl, .cons ⟨hp, c, _, _, rfl, h, hread⟩ hfound⟩

namespace Database

variable {c c' : Cursor} {s : Section} {tag : SectionTag}

lemma tag_of_readBody (h : readBody tag c = (.ok s, c')) : s.tag = tag := by
  cases tag with
  | durations => cases h
  | units => cases h
  | phonemeUnits => cases h
  | pitch => cases h
  | conditionals =>
    obtain ⟨_, _, -, h⟩ := Read.exists_of_bind h
    obtain ⟨_, _, -, h⟩ := Read.exists_of_bind h
    cases h
    rfl
  | _ =>
    obtain ⟨_, _, -, h⟩ := Read.exists_of_bind h
    cases h
    rfl

end Database

namespace Written

variable {data : Array UInt8} {s : Section} {p : Part}

/-- A section that is read where a part is written has the tag of the part. -/
lemma tag_eq (h : Written data s p) : s.tag = p.tag := by
  obtain ⟨hexact, c, c', ys, -, hrest, hread⟩ := h
  have hmagic : p.plan.magic = p.tag.bytes := by rw [(Part.plan_of_exact hexact).1]
  rw [SectionPlan.bytes, hmagic, List.append_assoc] at hrest
  rw [Walk.readSection, Read.bind_apply, Read.tag_eq hrest] at hread
  exact Database.tag_of_readBody hread

/-- What a class is written as, up to the zero word that ends it. -/
lemma rest_letterClass {c : Cursor} {x : LetterClass} {ys : Bytes}
    (hexact : (Part.letterClass x).plan.Exact)
    (h : c.rest = (Part.letterClass x).plan.bytes c.position ++ ys) :
    ∃ members more, members.length = x.members.length * Layout.classMemberSize ∧
      c.rest = (SectionTag.classDef.bytes ++ (LittleEndian.encode 2 (x.members.length + 1) ++
        x.id :: members)) ++ (LittleEndian.encode 4 0 ++ more) := by
  obtain ⟨hplan, hcount⟩ := Part.plan_of_exact hexact
  have hcount : (UInt16.ofNat (Part.letterClass x).count).toNat = x.members.length + 1 :=
    UInt16.toNat_ofNat_of_lt' hcount
  rw [SectionPlan.bytes_eq_of_pooling (by rw [hplan]), SectionPlan.values] at h
  generalize Pool.place ((Part.letterClass x).plan.poolStart c.position)
    (Part.letterClass x).plan.strings = place at h
  generalize SectionPlan.stringTable _ _ = table at h
  refine ⟨(x.members.map Datum.pooled).flatMap (Datum.bytes place), table ++ ys, ?_, ?_⟩
  · have hsize (s : Bytes) : (Datum.pooled s).size = Layout.classMemberSize := rfl
    simp [List.length_flatMap, Function.comp_def, hsize]
  · rw [h, hplan]
    simp only [List.flatMap_cons, Datum.bytes, hcount, Part.values, List.flatMap_append,
      List.append_assoc, List.cons_append, List.flatMap_nil, List.nil_append]
    rfl

/-- A class that is read where it is written ends with a word that is zero and is counted. -/
lemma exists_zero {t : NamedTable} (h : Written data (.letterClass t) p) :
    ∃ i < t.table.entries, HoldsWord data (t.table.offset + i * Layout.classMemberSize) 0 := by
  have htag := h.tag_eq
  obtain ⟨hexact, c, c', ys, rfl, hrest, hread⟩ := h
  obtain ⟨-, hstands, -⟩ := Database.stands_of_readSection hread
  cases p with
  | letterClass x =>
    obtain ⟨members, more, hlength, hrest⟩ := rest_letterClass hexact hrest
    have hentries : t.table.entries = x.members.length + 1 := by
      obtain ⟨behind, hbehind⟩ := hstands.header
      have heq := hbehind.trans hrest
      simp only [List.append_assoc] at heq
      have hcount := List.append_inj_left (List.append_cancel_left heq) (by simp)
      have hdecode := congrArg LittleEndian.decode hcount
      have hlt : x.members.length + 1 < UInt16.size := (Part.plan_of_exact hexact).2
      rwa [LittleEndian.decode_encode hstands.entries, LittleEndian.decode_encode hlt] at hdecode
    refine ⟨x.members.length, by omega, by decide, ?_⟩
    have hzero := rest_skip hrest
    have hposition : c.position + (SectionTag.classDef.bytes ++
        (LittleEndian.encode 2 (x.members.length + 1) ++ x.id :: members)).length =
        t.table.offset + x.members.length * Layout.classMemberSize := by
      rw [hstands.offset, List.length_append, List.length_append, List.length_cons, hlength,
        SectionTag.length_bytes, LittleEndian.length_encode, Layout.groupHeaderSize]
      omega
    rw [rest, data_skip, position_skip, hposition] at hzero
    exact ⟨more, hzero.symm⟩
  | _ => cases htag

end Written

/-- Parts of a tag that no definition has more than one part of. -/
lemma count_tag_parts (d : Definition) : (d.parts.map Part.tag).count .conditionals ≤ 1 ∧
    (d.parts.map Part.tag).count .dictionary ≤ 1 := by
  rw [Definition.parts]
  constructor <;> split_ifs <;>
    simp [Function.comp_def, Part.tag, List.map_const', List.count_replicate]

/-- Strings make no difference to how many sections of another tag there are. -/
lemma count_tag_sections {found : List Section} {tag : SectionTag} (htag : tag ≠ .strings) :
    ((Section.strings :: found.flatMap fun s => [s, .strings]).map Section.tag).count tag =
      (found.map Section.tag).count tag := by
  rw [List.map_cons, Section.tag, List.count_cons_of_ne htag.symm]
  induction found with
  | nil => rfl
  | cons s found ih =>
    rw [List.flatMap_cons, List.map_append, List.count_append, ih, List.map_cons, List.count_cons]
    simp [Section.tag, List.count_cons, htag.symm, Nat.add_comm]

/-- A database with at most one section of conditionals and one dictionary, and with a table for each
class that has a word among its entries that is zero. -/
structure Database.Regular (db : Database) : Prop where
  conditionals : (db.sections.map Section.tag).count .conditionals ≤ 1
  dictionary : (db.sections.map Section.tag).count .dictionary ≤ 1
  classIds : db.classIds.Nodup
  zero : ∀ t ∈ db.classTables, ∃ i < t.table.entries,
    HoldsWord db.data (t.table.offset + i * Layout.classMemberSize) 0

namespace Definition

variable {source : Bytes} {data : Array UInt8} {db : Database}

/-- What is loaded of a source that has been compiled are the sections that its parts are written as. -/
lemma exists_written_of_compile (hcompile : compile source = .ok data)
    (hload : Database.load data = .ok db) : ∃ d found, parse source = .ok d ∧ db.data = data ∧
      db.sections = .strings :: found.flatMap (fun s => [s, .strings]) ∧
      List.Forall₂ (Written data) found d.parts := by
  obtain ⟨d, hparse, hwrite⟩ := exists_of_compile hcompile
  obtain ⟨c, rfl, hsize, hexact, hrest, hloads⟩ := exists_load_eq hwrite
  rw [hloads] at hload
  obtain ⟨locale, -, hload⟩ := Outcome.exists_of_bind_eq_ok hload
  obtain ⟨alphabet, -, hload⟩ := Outcome.exists_of_bind_eq_ok hload
  obtain ⟨sections, hwalk, hdb⟩ := Outcome.exists_of_bind_eq_ok hload
  cases hdb
  obtain ⟨found, rfl, hfound⟩ :=
    exists_written (numbered_of_mem_parts (ids_of_parse hparse)) hexact hsize hrest hwalk
  exact ⟨d, found, hparse, rfl, rfl, hfound⟩

/-- A source is compiled to a regular database. -/
theorem regular_of_compile (hcompile : compile source = .ok data)
    (hload : Database.load data = .ok db) : db.Regular := by
  obtain ⟨d, found, hparse, hdata, hsections, hfound⟩ := exists_written_of_compile hcompile hload
  have htags : found.map Section.tag = d.parts.map Part.tag :=
    map_eq_map_of_forall₂ hfound fun _ _ hwritten => hwritten.tag_eq
  obtain ⟨hconditionals, hdictionary⟩ := count_tag_parts d
  refine ⟨?_, ?_, ?_, fun t ht => ?_⟩
  · rwa [hsections, count_tag_sections (by decide), htags]
  · rwa [hsections, count_tag_sections (by decide), htags]
  · rw [(keeps_of_load hparse hcompile hload).classIds]
    simpa [cut, LetterClass.cut, Function.comp_def] using classes_of_parse hparse
  · rw [Database.classTables, hsections, filterMap_sections rfl] at ht
    obtain ⟨s, hs, hclass⟩ := List.mem_filterMap.mp ht
    rw [Section.letterClass?_eq_some_iff] at hclass
    subst hclass
    obtain ⟨p, -, hwritten⟩ := exists_mem_of_forall₂ hfound hs
    rw [hdata]
    exact hwritten.exists_zero

end Definition

end LetterToSound.Language
