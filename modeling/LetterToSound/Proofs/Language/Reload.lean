import Mathlib
import LetterToSound.Compile
import LetterToSound.Language.Database
import LetterToSound.Proofs.Container.Success
import LetterToSound.Proofs.Language.Parts

/-!
# Loading what has been written

A definition that is written as a database is given back by loading the database: locale and alphabet
as texts, the conditionals, the classes, the groups of rules and the dictionary as they were declared.
The loader goes through the sections in the order of the parts that the definition has been written
as, so what it keeps of them is related to the parts one by one.

Strings end at their first zero byte, so what comes back of a definition that has such bytes is what
it would be without them and all behind them; where nothing is left of a pattern, its table ends.
-/

namespace LetterToSound.Language

open Cursor

/-- What a database keeps of a conditional. -/
def Conditional.stored (c : Conditional) : UInt8 × Polarity × Bytes := (c.id, c.polarity, c.locale)

/-- A condition with its locale as bytes. -/
def Condition.stored (c : Condition) : UInt8 × Polarity × Bytes :=
  (c.id, c.polarity, Bytes.ofString c.locale)

namespace Definition

/-- The strings of a definition. -/
def strings (d : Definition) : List Bytes :=
  d.locale :: d.alphabet :: (d.conditionals.map Conditional.locale ++
    d.classes.flatMap LetterClass.members ++
    (d.spellingRules ++ d.letterRules).flatMap (fun r => [r.pattern, r.replacement]) ++
    d.dictionary.flatMap (fun e => [e.word, e.phonemes]))

/-- A definition with its strings cut at their first zero bytes. -/
def cut (d : Definition) : Definition where
  locale := Bytes.cut d.locale
  alphabet := Bytes.cut d.alphabet
  conditionals := d.conditionals.map Conditional.cut
  classes := d.classes.map LetterClass.cut
  spellingRules := d.spellingRules.map Rule.cut
  letterRules := d.letterRules.map Rule.cut
  dictionary := d.dictionary.map Entry.cut

/-- What a definition needs in order to be kept: strings without zero bytes, ids of conditionals in
their range, classes of different ids, and patterns that do not look like the end of a table. -/
structure Storable (d : Definition) : Prop where
  zero : ∀ s ∈ d.strings, 0 ∉ s
  ids : ∀ c ∈ d.conditionals, c.id ≠ 0 ∧ c.id ≠ 255
  classes : (d.classes.map LetterClass.id).Nodup
  patterns : ∀ r ∈ d.spellingRules ++ d.letterRules, r.pattern ≠ []

/-- Bytes that a loader takes for a text. -/
def IsText (b : Bytes) : Prop := ∃ s, Bytes.toString? b = some s

/-- A definition whose locales and alphabet are texts. -/
structure Readable (d : Definition) : Prop where
  locale : IsText d.locale
  alphabet : IsText d.alphabet
  conditionals : ∀ c ∈ d.conditionals, IsText c.locale

end Definition

namespace Database

/-- Tables that hold rules group by group, the groups in ascending order and the rules of a group in
the order of the list. -/
structure Groups (db : Database) (tables : List NamedTable) (rules : List Rule) : Prop where
  ascending : tables.Pairwise fun s t => s.id < t.id
  ids : ∀ group, group ∈ tables.map NamedTable.id ↔ group ∈ rules.map Rule.group
  entries : ∀ t ∈ tables, t.table.entries = (rules.filter (·.group = t.id)).length + 1
  rules : ∀ t ∈ tables, db.rules t = (rules.filter (·.group = t.id)).map Rule.stored

/-- Tables that hold rules group by group, those of a group up to the first empty pattern. -/
structure Prefixes (db : Database) (tables : List NamedTable) (rules : List Rule) : Prop where
  ascending : tables.Pairwise fun s t => s.id < t.id
  ids : ∀ group, group ∈ tables.map NamedTable.id ↔ group ∈ rules.map Rule.group
  entries : ∀ t ∈ tables, t.table.entries = (rules.filter (·.group = t.id)).length + 1
  rules : ∀ t ∈ tables, db.rules t = readable ((rules.filter (·.group = t.id)).map Rule.stored)

/-- A database that says what a definition says, except that of each group of rules it keeps no more
than those before the first empty pattern. -/
structure Keeps (db : Database) (d : Definition) : Prop where
  locale : Bytes.ofString db.locale = d.locale
  alphabet : Bytes.ofString db.alphabet = d.alphabet
  conditions : db.conditions.map Condition.stored = d.conditionals.map Conditional.stored
  classIds : db.classIds = d.classes.map LetterClass.id
  members : ∀ c ∈ d.classes, db.members c.id = c.members
  members_undefined : ∀ id ∉ d.classes.map LetterClass.id, db.members id = []
  spellingGroups : db.Prefixes db.spellingGroups d.spellingRules
  letterGroups : db.Prefixes db.letterGroups d.letterRules
  dictionary : db.dictionary = d.dictionary.map Entry.stored
  lookup : ∀ word, db.lookup word = (d.dictionary.find? (·.word = word)).map Entry.phonemes

/-- A database that says what a definition says. -/
structure Represents (db : Database) (d : Definition) : Prop where
  locale : Bytes.ofString db.locale = d.locale
  alphabet : Bytes.ofString db.alphabet = d.alphabet
  conditions : db.conditions.map Condition.stored = d.conditionals.map Conditional.stored
  classIds : db.classIds = d.classes.map LetterClass.id
  members : ∀ c ∈ d.classes, db.members c.id = c.members
  members_undefined : ∀ id ∉ d.classes.map LetterClass.id, db.members id = []
  spellingGroups : db.Groups db.spellingGroups d.spellingRules
  letterGroups : db.Groups db.letterGroups d.letterRules
  dictionary : db.dictionary = d.dictionary.map Entry.stored
  lookup : ∀ word, db.lookup word = (d.dictionary.find? (·.word = word)).map Entry.phonemes

end Database

lemma decoded_of_isText {b : Bytes} (h : Definition.IsText b) : ∃ s, Read.decoded b = .ok s := by
  obtain ⟨s, hs⟩ := h
  exact ⟨s, by rw [Read.decoded, hs]⟩

section Header

variable {c : Cursor} {locale alphabet ys : Bytes}

/-- The header of a definition is read up to its strings, if locale and alphabet are texts. -/
lemma readHeader_plan (hexact : (Image.header locale alphabet).Exact)
    (hsize : c.data.size < UInt32.size)
    (h : c.rest = (Image.header locale alphabet).bytes c.position ++ ys) :
    (Database.readHeader c).1 =
        (do return (← Read.decoded (Bytes.cut locale), ← Read.decoded (Bytes.cut alphabet))) ∧
      ∀ r, (Database.readHeader c).1 = .ok r → (Database.readHeader c).2 =
        c.skip ((Image.header locale alphabet).magic ++
          (Image.header locale alphabet).values c.position).length := by
  let plan := Image.header locale alphabet
  have hrefers : ∀ s, Datum.pooled s ∈ plan.body → Refers c.data
      (Pool.place (plan.poolStart c.position) plan.strings) s := fun s hs =>
    SectionPlan.refers_of_rest hexact rfl hsize h (SectionPlan.mem_strings hs)
  have hl := hrefers locale (by simp [plan, Image.header])
  have ha := hrefers alphabet (by simp [plan, Image.header])
  generalize hplace : Pool.place (plan.poolStart c.position) plan.strings = place at hl ha
  have hvalues : plan.values c.position = LittleEndian.encode 2 Layout.byteOrderWitness.toNat ++
      (LittleEndian.encode 4 (place locale) ++ LittleEndian.encode 4 (place alphabet)) := by
    rw [SectionPlan.values, hplace]
    simp [plan, Image.header, Datum.bytes]
  have hmagic : plan.magic = Layout.languageMagic := rfl
  rw [SectionPlan.bytes_eq_of_pooling rfl, hvalues, hmagic, List.append_assoc,
    List.append_assoc, List.append_assoc, List.append_assoc] at h
  have h₁ := rest_skip h
  have h₂ := rest_skip_encode h₁
  have h₃ := rest_skip_encode h₂
  have hheader : Read.header Layout.languageMagic Database.name c =
      (.ok (), c.skip (Layout.languageMagic.length + 2)) := by
    rw [Read.header, Read.bind_apply, Read.magic, Read.bytes_eq h (by decide)]
    simp only [if_true, Read.bind_apply, Read.u16_eq h₁ (by decide)]
    rw [skip_skip]
    rfl
  rw [skip_skip] at h₂ h₃
  have hfirst := Read.text_eq (c := c.skip (Layout.languageMagic.length + 2)) hl h₂
  have hsecond := Read.text_eq (c := (c.skip (Layout.languageMagic.length + 2)).skip 4) ha h₃
  rw [hvalues, hmagic, Database.readHeader, Read.bind_apply, hheader]
  simp only [Read.bind_apply, hfirst]
  cases hdecoded : Read.decoded (Bytes.cut locale) with
  | error e => exact ⟨rfl, fun r hr => by cases hr⟩
  | ok l =>
    simp only [hsecond]
    cases hdecoded' : Read.decoded (Bytes.cut alphabet) with
    | error e => exact ⟨rfl, fun r hr => by cases hr⟩
    | ok a =>
      refine ⟨rfl, fun r _ => ?_⟩
      simp [Read.pure_apply, Nat.add_assoc]

end Header

section Walk

variable {c : Cursor}

/-- The sections that a database holds from a cursor on. -/
abbrev Database.walk (c : Cursor) : Except LoadError (List Section) :=
  Walk.sections Database.readBody Database.forward_readBody c

/-- Behind the values of a section its strings are read, and the walk goes on behind them. -/
lemma walk_behind_values {plan : SectionPlan} {ys : Bytes} (hexact : plan.Exact)
    (hpooling : plan.pooling = true) (hsize : c.data.size < UInt32.size)
    (h : c.rest = plan.bytes c.position ++ ys) :
    Database.walk (c.skip (plan.magic ++ plan.values c.position).length) =
      (Database.walk (c.skip (plan.bytes c.position).length)).map (.strings :: ·) :=
  Walk.sections_behind_values rfl hexact hpooling hsize h

/-- A part that is written takes up room. -/
lemma Part.bytes_ne_nil {p : Part} (h : p.plan.Exact) (start : Nat) : p.plan.bytes start ≠ [] := by
  have hpooling : p.plan.pooling = true := by rw [(plan_of_exact h).1]
  rw [SectionPlan.bytes_eq_of_pooling hpooling, ← List.length_pos_iff, List.length_append,
    SectionPlan.length_stringTable, Layout.stringTableHeaderSize]
  omega

/-- The walk finds a section for each part, and the strings of the part behind it. -/
theorem walk_parts {ps : List Part} (hps : ∀ p ∈ ps, p.Numbered)
    (hexact : ∀ p ∈ ps, p.plan.Exact) (hsize : c.data.size < UInt32.size)
    (h : c.rest = SectionPlan.allBytes c.position (ps.map Part.plan)) :
    ((∀ p ∈ ps, ∃ found, p.cut.texts = .ok found) → ∃ found : List Section,
      Database.walk c = .ok (found.flatMap fun s => [s, .strings]) ∧
      ∀ db : Database, db.data = c.data → List.Forall₂ (Gives db) found (ps.map Part.cut)) ∧
    ∀ sections, Database.walk c = .ok sections → ∀ p ∈ ps, ∃ found, p.cut.texts = .ok found := by
  induction ps generalizing c with
  | nil =>
    have hend : c.data.size ≤ c.position := by
      simpa [rest, SectionPlan.allBytes, List.drop_eq_nil_iff] using h
    exact ⟨fun _ => ⟨[], Walk.sections_of_end hend, fun _ _ => .nil⟩, by simp⟩
  | cons p ps ih =>
    have hp := hexact p List.mem_cons_self
    have hpooling : p.plan.pooling = true := by rw [(Part.plan_of_exact hp).1]
    rw [List.map_cons, SectionPlan.allBytes] at h
    obtain ⟨hok, herror⟩ := Part.readSection_plan (hps p List.mem_cons_self) hp hsize h
    have hbehind := walk_behind_values hp hpooling hsize h
    have hlt := Walk.position_lt_of_rest h (Part.bytes_ne_nil hp c.position)
    have hfits : (c.skip (p.plan.bytes c.position).length).data.size < UInt32.size := hsize
    obtain ⟨hfound, htexts⟩ := ih (fun q hq => hps q (List.mem_cons_of_mem p hq))
      (fun q hq => hexact q (List.mem_cons_of_mem p hq)) hfits (rest_skip h)
    constructor
    · intro hall
      obtain ⟨conditions, hp'⟩ := hall p List.mem_cons_self
      obtain ⟨sec, hread, hgives⟩ := hok conditions hp'
      obtain ⟨found, hwalk, hrest⟩ := hfound fun q hq => hall q (List.mem_cons_of_mem p hq)
      refine ⟨sec :: found, ?_, fun db hdb => .cons (hgives db hdb) (hrest db hdb)⟩
      rw [Database.walk, Walk.sections_of_ok hlt hread, ← Database.walk, hbehind, hwalk]
      rfl
    · intro sections hwalk
      cases htext : p.cut.texts with
      | error e =>
        rw [Database.walk, Walk.sections_of_error hlt (herror e htext)] at hwalk
        cases hwalk
      | ok conditions =>
        obtain ⟨sec, hread, -⟩ := hok conditions htext
        rw [Database.walk, Walk.sections_of_ok hlt hread, ← Database.walk, hbehind] at hwalk
        cases hrest : Database.walk (c.skip (p.plan.bytes c.position).length) with
        | error e =>
          rw [hrest] at hwalk
          cases hwalk
        | ok more =>
          intro q hq
          rcases List.mem_cons.mp hq with rfl | hq
          · exact ⟨conditions, htext⟩
          · exact htexts more hrest q hq

end Walk

section Lists

variable {ε α β : Type} {R : α → β → Prop} {xs : List α} {ys : List β}

lemma exists_mem_of_forall₂ (h : List.Forall₂ R xs ys) {a : α} (ha : a ∈ xs) : ∃ b ∈ ys, R a b := by
  induction h with
  | nil => cases ha
  | cons hab _ ih =>
    rcases List.mem_cons.mp ha with rfl | ha
    · exact ⟨_, List.mem_cons_self, hab⟩
    · obtain ⟨b, hb, hrel⟩ := ih ha
      exact ⟨b, List.mem_cons_of_mem _ hb, hrel⟩

lemma map_eq_map_of_forall₂ {γ : Type} {f : α → γ} {g : β → γ} (h : List.Forall₂ R xs ys)
    (hfg : ∀ a b, R a b → f a = g b) : xs.map f = ys.map g := by
  rw [← List.forall₂_eq_eq_eq, List.forall₂_map_left_iff, List.forall₂_map_right_iff]
  exact h.imp hfg

/-- Steps over a list have all succeeded. -/
lemma forall₂_of_mapM_eq_ok {f : α → Except ε β} (h : xs.mapM f = .ok ys) :
    List.Forall₂ (fun x y => f x = .ok y) xs ys := by
  induction xs generalizing ys with
  | nil =>
    cases h
    exact .nil
  | cons x xs ih =>
    rw [List.mapM_cons] at h
    obtain ⟨y, hy, h⟩ := Outcome.exists_of_bind_eq_ok h
    obtain ⟨rest, hrest, h⟩ := Outcome.exists_of_bind_eq_ok h
    cases h
    exact .cons hy (ih hrest)

lemma exists_mapM_eq_ok {f : α → Except ε β} (h : ∀ x ∈ xs, ∃ y, f x = .ok y) :
    ∃ ys, xs.mapM f = .ok ys := by
  induction xs with
  | nil => exact ⟨[], rfl⟩
  | cons x xs ih =>
    obtain ⟨y, hy⟩ := h x List.mem_cons_self
    obtain ⟨rest, hrest⟩ := ih fun x hx => h x (List.mem_cons_of_mem _ hx)
    exact ⟨y :: rest, by rw [List.mapM_cons, hy, hrest]; rfl⟩

end Lists

/-- The locales of a part can be loaded when they are texts, and only then. -/
lemma exists_texts_iff {p : Part} : (∃ found, p.texts = .ok found) ↔
    ∀ cs, p = .conditionals cs → ∀ c ∈ cs, Definition.IsText c.locale := by
  cases p with
  | conditionals cs =>
    simp only [Part.texts, Part.conditionals.injEq, forall_eq']
    constructor
    · rintro ⟨found, h⟩ c hc
      obtain ⟨x, -, hx⟩ := exists_mem_of_forall₂ (forall₂_of_mapM_eq_ok h) hc
      cases hdecoded : Read.decoded c.locale with
      | error e =>
        rw [Database.conditionOf, hdecoded] at hx
        cases hx
      | ok s => exact ⟨s, Read.decoded_eq_ok hdecoded⟩
    · intro h
      refine exists_mapM_eq_ok fun c hc => ?_
      obtain ⟨s, hs⟩ := decoded_of_isText (h c hc)
      exact ⟨⟨c.id, c.polarity, s⟩, by rw [Database.conditionOf, hs]; rfl⟩
  | _ => simp [Part.texts]

namespace Part

def conditions : Part → List Conditional
  | conditionals cs => cs
  | _ => []

def letterClass? : Part → Option LetterClass
  | letterClass c => some c
  | _ => none

def spellings? : Part → Option (UInt8 × List Rule)
  | spellingRules group rules => some (group, rules)
  | _ => none

def letters? : Part → Option (UInt8 × List Rule)
  | letterRules group rules => some (group, rules)
  | _ => none

def dictionary? : Part → Option (List Entry)
  | dictionary entries => some entries
  | _ => none

end Part

lemma stored_of_conditionOf {x : Conditional} {c : Condition}
    (h : Database.conditionOf x = .ok c) : x.stored = c.stored := by
  rw [Database.conditionOf] at h
  cases hdecoded : Read.decoded x.locale with
  | error e =>
    rw [hdecoded] at h
    cases h
  | ok s =>
    rw [hdecoded] at h
    cases h
    rw [Conditional.stored, Condition.stored, Bytes.ofString_of_toString? (Read.decoded_eq_ok hdecoded)]

/-- A table that holds the rules of a group. -/
structure Holds (db : Database) (t : NamedTable) (g : UInt8 × List Rule) : Prop where
  id : t.id = g.1
  entries : t.table.entries = g.2.length + 1
  rules : db.rules t = readable (g.2.map Rule.stored)

section Sections

variable {db : Database} {found : List Section} {ps : List Part}

/-- String tables have nothing that could be asked for. -/
lemma filterMap_sections {α : Type} {f : Section → Option α} (hf : f .strings = none) :
    (Section.strings :: found.flatMap fun s => [s, .strings]).filterMap f = found.filterMap f := by
  rw [List.filterMap_cons_none hf]
  induction found with
  | nil => rfl
  | cons s found ih =>
    rw [List.flatMap_cons, List.filterMap_append, ih]
    cases hs : f s <;> simp [hs, hf]

lemma conditions_sections :
    (Section.strings :: found.flatMap fun s => [s, .strings]).flatMap Section.conditions =
      found.flatMap Section.conditions := by
  induction found with
  | nil => rfl
  | cons s found ih =>
    simp only [List.flatMap_cons, Section.conditions, List.nil_append] at ih ⊢
    simp [ih, Section.conditions]

lemma conditions_of_gives (h : List.Forall₂ (Gives db) found ps) :
    (found.flatMap Section.conditions).map Condition.stored =
      (ps.flatMap Part.conditions).map Conditional.stored := by
  induction h with
  | nil => rfl
  | cons hsec _ ih =>
    rw [List.flatMap_cons, List.flatMap_cons, List.map_append, List.map_append, ih]
    congr 1
    cases hsec with
    | conditionals h =>
      exact (map_eq_map_of_forall₂ (forall₂_of_mapM_eq_ok h) fun _ _ => stored_of_conditionOf).symm
    | _ => rfl

lemma classes_of_gives (h : List.Forall₂ (Gives db) found ps) :
    List.Forall₂ (fun t c => t.id = c.id ∧ db.membersFrom [] t.table.offset = c.members)
      (found.filterMap Section.letterClass?) (ps.filterMap Part.letterClass?) := by
  refine List.rel_filterMap (fun sec p hsec => ?_) h
  cases hsec with
  | letterClass hid hmembers => exact .some ⟨hid, hmembers⟩
  | _ => exact .none

lemma spellings_of_gives (h : List.Forall₂ (Gives db) found ps) :
    List.Forall₂ (Holds db) (found.filterMap Section.spellingRules?)
      (ps.filterMap Part.spellings?) := by
  refine List.rel_filterMap (fun sec p hsec => ?_) h
  cases hsec with
  | spellingRules hid hentries hrules => exact .some ⟨hid, hentries, hrules⟩
  | _ => exact .none

lemma letters_of_gives (h : List.Forall₂ (Gives db) found ps) :
    List.Forall₂ (Holds db) (found.filterMap Section.letterRules?) (ps.filterMap Part.letters?) := by
  refine List.rel_filterMap (fun sec p hsec => ?_) h
  cases hsec with
  | letterRules hid hentries hrules => exact .some ⟨hid, hentries, hrules⟩
  | _ => exact .none

lemma dictionaries_of_gives (h : List.Forall₂ (Gives db) found ps) :
    List.Forall₂ (fun t entries => db.entries t = entries.map Entry.stored)
      (found.filterMap Section.dictionary?) (ps.filterMap Part.dictionary?) := by
  refine List.rel_filterMap (fun sec p hsec => ?_) h
  cases hsec with
  | dictionary hentries => exact .some hentries
  | _ => exact .none

end Sections

section Groups

variable {rules : List Rule}

lemma mem_groups {g : UInt8 × List Rule} :
    g ∈ groups rules ↔ g.2 = rules.filter (·.group = g.1) ∧ ∃ r ∈ rules, r.group = g.1 := by
  obtain ⟨group, members⟩ := g
  rw [groups, List.mem_filterMap]
  constructor
  · rintro ⟨n, -, hn⟩
    dsimp only at hn
    split at hn
    · cases hn
    · rename_i hfilter
      cases hn
      refine ⟨rfl, ?_⟩
      obtain ⟨r, hr⟩ := List.exists_mem_of_ne_nil _ hfilter
      exact ⟨r, by simpa using hr⟩
  · rintro ⟨hmembers, r, hr, hgroup⟩
    obtain rfl : members = rules.filter (·.group = group) := hmembers
    refine ⟨group.toNat, List.mem_range.mpr group.toNat_lt, ?_⟩
    dsimp only
    rw [UInt8.ofNat_toNat]
    split
    · rename_i hnil
      have hmem : r ∈ rules.filter (·.group = group) := by simp [hr, hgroup]
      rw [hnil] at hmem
      cases hmem
    · rfl

lemma fst_of_groups {n : Nat} {g : UInt8 × List Rule}
    (h : (match rules.filter (·.group = UInt8.ofNat n) with
      | [] => none
      | members => some (UInt8.ofNat n, members)) = some g) : g.1 = UInt8.ofNat n := by
  split at h
  · cases h
  · cases h
    rfl

lemma pairwise_groups (rules : List Rule) : (groups rules).Pairwise fun g g' => g.1 < g'.1 := by
  have hrange : (List.range 256).Pairwise fun m n => UInt8.ofNat m < UInt8.ofNat n := by
    refine List.pairwise_lt_range.imp_of_mem fun {m n} hm hn hlt => ?_
    rw [List.mem_range] at hm hn
    rw [UInt8.lt_iff_toNat_lt, UInt8.toNat_ofNat_of_lt' hm, UInt8.toNat_ofNat_of_lt' hn]
    exact hlt
  refine hrange.filterMap _ fun m n hlt g hg g' hg' => ?_
  rwa [fst_of_groups hg, fst_of_groups hg']

/-- Tables that hold the groups of a list of rules hold the list group by group. -/
lemma prefixes_of_holds {db : Database} {tables : List NamedTable}
    (h : List.Forall₂ (Holds db) tables (groups rules)) : db.Prefixes tables rules := by
  have hids : tables.map NamedTable.id = (groups rules).map Prod.fst :=
    map_eq_map_of_forall₂ h fun _ _ hrel => hrel.id
  have hgroup : ∀ t ∈ tables, t.table.entries = (rules.filter (·.group = t.id)).length + 1 ∧
      db.rules t = readable ((rules.filter (·.group = t.id)).map Rule.stored) := by
    intro t ht
    obtain ⟨g, hg, hrel⟩ := exists_mem_of_forall₂ h ht
    rw [hrel.entries, hrel.rules, hrel.id, (mem_groups.mp hg).1]
    exact ⟨rfl, rfl⟩
  refine ⟨?_, fun group => ?_, fun t ht => (hgroup t ht).1, fun t ht => (hgroup t ht).2⟩
  · have hpairs := List.pairwise_map.mpr (pairwise_groups rules)
    rw [← hids] at hpairs
    exact List.pairwise_map.mp hpairs
  · rw [hids, List.mem_map, List.mem_map]
    constructor
    · rintro ⟨g, hg, rfl⟩
      exact (mem_groups.mp hg).2
    · intro hr
      exact ⟨(group, rules.filter (·.group = group)), mem_groups.mpr ⟨rfl, hr⟩, rfl⟩

/-- The groups of rules that a function leaves in their groups. -/
lemma groups_map {f : Rule → Rule} (hf : ∀ r, (f r).group = r.group) :
    groups (rules.map f) = (groups rules).map fun g => (g.1, g.2.map f) := by
  rw [groups, groups, List.map_filterMap]
  refine List.filterMap_congr fun n _ => ?_
  have hfilter : (rules.map f).filter (·.group = UInt8.ofNat n) =
      (rules.filter (·.group = UInt8.ofNat n)).map f := by
    simp [List.filter_map, Function.comp_def, hf]
  dsimp only
  rw [hfilter]
  cases rules.filter (·.group = UInt8.ofNat n) <;> rfl

/-- No rule is lost where no pattern is empty. -/
lemma Database.Prefixes.groups {db : Database} {tables : List NamedTable}
    (h : db.Prefixes tables rules) (hne : ∀ r ∈ rules, r.pattern ≠ []) :
    db.Groups tables rules := by
  refine ⟨h.ascending, h.ids, h.entries, fun t ht => ?_⟩
  rw [h.rules t ht, readable, List.takeWhile_eq_self_iff]
  intro p hp
  obtain ⟨r, hr, rfl⟩ := List.mem_map.mp hp
  exact decide_eq_true (hne r (List.mem_of_mem_filter hr))

/-- What a database keeps is all that a definition says where no pattern is empty. -/
lemma Database.Keeps.represents {db : Database} {d : Definition} (h : db.Keeps d)
    (hne : ∀ r ∈ d.spellingRules ++ d.letterRules, r.pattern ≠ []) : db.Represents d where
  locale := h.locale
  alphabet := h.alphabet
  conditions := h.conditions
  classIds := h.classIds
  members := h.members
  members_undefined := h.members_undefined
  spellingGroups := h.spellingGroups.groups fun r hr => hne r (List.mem_append_left _ hr)
  letterGroups := h.letterGroups.groups fun r hr => hne r (List.mem_append_right _ hr)
  dictionary := h.dictionary
  lookup := h.lookup

end Groups

section Classes

variable {db : Database}

/-- The table of a class is the one with its id, if there is one table for each class. -/
lemma classTable?_of_mem (hnodup : db.classIds.Nodup) {t : NamedTable} (ht : t ∈ db.classTables) :
    db.classTable? t.id = some t := by
  have hmem : t ∈ db.classTables.filter (·.id = t.id) := List.mem_filter.mpr ⟨ht, by simp⟩
  cases hlast : db.classTable? t.id with
  | none =>
    rw [Database.classTable?, List.getLast?_eq_none_iff] at hlast
    exact absurd hmem (hlast ▸ List.not_mem_nil)
  | some u =>
    obtain ⟨hu, hid⟩ := List.mem_filter.mp (List.mem_of_getLast? hlast)
    rw [List.inj_on_of_nodup_map hnodup hu ht (of_decide_eq_true hid)]

/-- A class without a table has no members. -/
lemma members_of_not_mem {id : UInt8} (hid : id ∉ db.classIds) : db.members id = [] := by
  have hnone : db.classTable? id = none := by
    rw [Database.classTable?, List.getLast?_eq_none_iff, List.filter_eq_nil_iff]
    exact fun t ht heq => hid (List.mem_map.mpr ⟨t, ht, of_decide_eq_true heq⟩)
  rw [Database.members, hnone]

end Classes

namespace Definition

variable {d : Definition}

lemma map_eq_self {α : Type} {f : α → α} {xs : List α} (h : ∀ x ∈ xs, f x = x) : xs.map f = xs :=
  (List.map_congr_left h).trans (List.map_id _)

/-- Nothing is cut off a definition without zero bytes. -/
lemma cut_of_zero_not_mem (hzero : ∀ s ∈ d.strings, 0 ∉ s) : d.cut = d := by
  have hcut : ∀ s ∈ d.strings, Bytes.cut s = s := fun s hs => Bytes.cut_of_not_mem (hzero s hs)
  simp only [strings, List.forall_mem_cons, List.forall_mem_append, List.forall_mem_map,
    List.forall_mem_flatMap] at hcut
  obtain ⟨hlocale, halphabet, ⟨⟨hconditionals, hclasses⟩, hspelling, hletter⟩, hdictionary⟩ := hcut
  have hrule : ∀ r : Rule, (Bytes.cut r.pattern = r.pattern ∧ Bytes.cut r.replacement = r.replacement ∧
      ∀ s ∈ ([] : List Bytes), Bytes.cut s = s) → r.cut = r := by
    rintro ⟨group, pattern, replacement⟩ ⟨hpattern, hreplacement, -⟩
    simp only [Rule.cut, hpattern, hreplacement]
  obtain ⟨locale, alphabet, conditionals, classes, spellings, letters, dictionary⟩ := d
  simp only [cut, Definition.mk.injEq]
  refine ⟨hlocale, halphabet, map_eq_self fun c hc => ?_, map_eq_self fun c hc => ?_,
    map_eq_self fun r hr => hrule r (hspelling r hr), map_eq_self fun r hr => hrule r (hletter r hr),
    map_eq_self fun e he => ?_⟩
  · rw [Conditional.cut, hconditionals c hc]
  · rw [LetterClass.cut, map_eq_self (hclasses c hc)]
  · rw [Entry.cut, (hdictionary e he).1, (hdictionary e he).2.1]

/-- The parts of a definition that is cut are its parts, cut. -/
lemma parts_cut (d : Definition) : d.cut.parts = d.parts.map Part.cut := by
  have hgroups (rules : List Rule) :
      groups (rules.map Rule.cut) = (groups rules).map fun g => (g.1, g.2.map Rule.cut) :=
    groups_map fun _ => rfl
  rw [parts, parts]
  simp only [cut, hgroups, List.isEmpty_map]
  split_ifs <;> simp [Function.comp_def, Part.cut]

lemma mem_parts_conditionals {cs : List Conditional} :
    Part.conditionals cs ∈ d.parts ↔ cs = d.conditionals ∧ d.conditionals ≠ [] := by
  rw [parts]
  split_ifs <;> simp_all

/-- The parts of a definition have good ids if its conditionals have. -/
lemma numbered_of_mem_parts (hids : ∀ c ∈ d.conditionals, c.id ≠ 0 ∧ c.id ≠ 255) :
    ∀ p ∈ d.parts, p.Numbered := by
  rintro p hp cs rfl
  rw [(mem_parts_conditionals.mp hp).1]
  exact hids

lemma flatMap_conditions_parts : d.parts.flatMap Part.conditions = d.conditionals := by
  rw [parts]
  split_ifs <;> simp_all [List.flatMap_cons, List.flatMap_map, Part.conditions]

lemma filterMap_letterClass_parts : d.parts.filterMap Part.letterClass? = d.classes := by
  rw [parts]
  split_ifs <;> simp [List.filterMap_cons, List.filterMap_map, Function.comp_def, Part.letterClass?]

lemma filterMap_spellings_parts : d.parts.filterMap Part.spellings? = groups d.spellingRules := by
  rw [parts]
  split_ifs <;> simp [List.filterMap_cons, List.filterMap_map, Function.comp_def, Part.spellings?]

lemma filterMap_letters_parts : d.parts.filterMap Part.letters? = groups d.letterRules := by
  rw [parts]
  split_ifs <;> simp [List.filterMap_cons, List.filterMap_map, Function.comp_def, Part.letters?]

lemma flatten_dictionary_parts : (d.parts.filterMap Part.dictionary?).flatten = d.dictionary := by
  rw [parts]
  split_ifs <;>
    simp_all [List.filterMap_cons, List.filterMap_map, Function.comp_def, Part.dictionary?]

/-- A database whose sections give back the parts of a definition keeps what the definition says. -/
lemma keeps_of_gives {db : Database} {found : List Section} (hclassIds : (d.classes.map LetterClass.id).Nodup)
    (hlocale : Bytes.toString? d.locale = some db.locale)
    (halphabet : Bytes.toString? d.alphabet = some db.alphabet)
    (hsections : db.sections = .strings :: found.flatMap fun s => [s, .strings])
    (h : List.Forall₂ (Gives db) found d.parts) : db.Keeps d := by
  have hconditions := conditions_of_gives h
  rw [flatMap_conditions_parts, ← conditions_sections, ← hsections] at hconditions
  have hclasses := classes_of_gives h
  rw [filterMap_letterClass_parts, ← filterMap_sections rfl, ← hsections] at hclasses
  have hspellings := spellings_of_gives h
  rw [filterMap_spellings_parts, ← filterMap_sections rfl, ← hsections] at hspellings
  have hletters := letters_of_gives h
  rw [filterMap_letters_parts, ← filterMap_sections rfl, ← hsections] at hletters
  have hdictionary : db.dictionary = d.dictionary.map Entry.stored := by
    have htables := map_eq_map_of_forall₂ (dictionaries_of_gives h) fun _ _ => id
    rw [← filterMap_sections rfl, ← hsections] at htables
    rw [Database.dictionary, Database.dictionaries, List.flatMap_def, htables,
      ← List.map_flatten, flatten_dictionary_parts]
  have hids : db.classIds = d.classes.map LetterClass.id :=
    map_eq_map_of_forall₂ hclasses fun _ _ hrel => hrel.1
  exact {
    locale := Bytes.ofString_of_toString? hlocale
    alphabet := Bytes.ofString_of_toString? halphabet
    conditions := hconditions
    classIds := hids
    members := by
      intro c hc
      obtain ⟨t, ht, hid, hmembers⟩ := exists_mem_of_forall₂ hclasses.flip hc
      rw [← hid, Database.members, classTable?_of_mem (by rwa [hids]) ht]
      exact hmembers
    members_undefined := fun id hid => members_of_not_mem (by rwa [hids])
    spellingGroups := prefixes_of_holds hspellings
    letterGroups := prefixes_of_holds hletters
    dictionary := hdictionary
    lookup := by
      intro word
      rw [Database.lookup, hdictionary, List.find?_map, Option.map_map]
      rfl }

/-- Loading what has been written is reading locale and alphabet and walking through the parts. -/
lemma exists_load_eq {limit : Option Nat} {data : Array UInt8} (h : d.write limit = (.ok (), data)) :
    ∃ c : Cursor, c.data = data ∧ data.size < UInt32.size ∧ (∀ p ∈ d.parts, p.plan.Exact) ∧
      c.rest = SectionPlan.allBytes c.position (d.parts.map Part.plan) ∧
      Database.load data = do
        let locale ← Read.decoded d.cut.locale
        let alphabet ← Read.decoded d.cut.alphabet
        let sections ← Database.walk c
        return ⟨data, locale, alphabet, .strings :: sections⟩ := by
  obtain ⟨hdata, hsize, hexact⟩ := Writer.run_ok (run_of_assemble h)
  rw [image_eq] at hdata hexact
  obtain ⟨hheader, hplans⟩ := List.forall_mem_cons.mp hexact
  have hfits : (Cursor.start data).data.size < UInt32.size := hsize
  have hrest : (Cursor.start data).rest = SectionPlan.allBytes (Cursor.start data).position
      (Image.header d.locale d.alphabet :: d.parts.map Part.plan) := hdata
  rw [SectionPlan.allBytes] at hrest
  obtain ⟨hread, hcursor⟩ := readHeader_plan hheader hfits hrest
  have hbehind := walk_behind_values hheader rfl hfits hrest
  -- The walk starts at the strings of the header, and the parts stand behind them.
  refine ⟨_, rfl, hsize, fun p hp => hplans _ (List.mem_map_of_mem hp), rest_skip hrest, ?_⟩
  rw [Database.load]
  generalize Database.readHeader (Cursor.start data) = out at hread hcursor ⊢
  obtain ⟨result, c⟩ := out
  dsimp only at hread hcursor
  subst hread
  simp only [cut]
  cases hlocale : Read.decoded (Bytes.cut d.locale) with
  | error e => rfl
  | ok locale =>
    cases halphabet : Read.decoded (Bytes.cut d.alphabet) with
    | error e => rfl
    | ok alphabet =>
      obtain rfl := hcursor (locale, alphabet) (by rw [hlocale, halphabet]; rfl)
      simp only [bind, Except.bind, pure, Except.pure]
      rw [← Database.walk, hbehind]
      cases Database.walk _ <;> rfl

/-- A definition that has been written is loaded if its locales and alphabet are texts as far as they
are kept, and only then. What has been loaded is the definition with its strings cut. -/
theorem keeps_of_write {limit : Option Nat} {data : Array UInt8}
    (hids : ∀ c ∈ d.conditionals, c.id ≠ 0 ∧ c.id ≠ 255)
    (hclasses : (d.classes.map LetterClass.id).Nodup) (h : d.write limit = (.ok (), data)) :
    (d.cut.Readable → ∃ db, Database.load data = .ok db ∧ db.Keeps d.cut) ∧
      ∀ db, Database.load data = .ok db → d.cut.Readable := by
  obtain ⟨c, rfl, hfits, hparts, hrest, hload⟩ := exists_load_eq h
  obtain ⟨hok, htexts⟩ := walk_parts (numbered_of_mem_parts hids) hparts hfits hrest
  have hcut : (∀ p ∈ d.parts, ∃ found, p.cut.texts = .ok found) ↔
      ∀ p ∈ d.cut.parts, ∃ found, p.texts = .ok found := by
    rw [parts_cut, List.forall_mem_map]
  rw [hcut] at hok
  rw [hload]
  constructor
  · intro hreadable
    obtain ⟨locale, hlocale⟩ := hreadable.locale
    obtain ⟨alphabet, halphabet⟩ := hreadable.alphabet
    obtain ⟨found, hwalk, hgives⟩ := hok fun p hp => exists_texts_iff.mpr fun cs hcs x hx => by
      rw [hcs, mem_parts_conditionals] at hp
      exact hreadable.conditionals x (hp.1 ▸ hx)
    have hclasses' : (d.cut.classes.map LetterClass.id).Nodup := by
      simpa [cut, LetterClass.cut, Function.comp_def] using hclasses
    rw [← parts_cut] at hgives
    rw [Read.decoded, Read.decoded, hlocale, halphabet, hwalk]
    exact ⟨_, rfl, keeps_of_gives hclasses' hlocale halphabet rfl (hgives _ rfl)⟩
  · intro db hdb
    obtain ⟨locale, hlocale, hdb⟩ := Outcome.exists_of_bind_eq_ok hdb
    obtain ⟨alphabet, halphabet, hdb⟩ := Outcome.exists_of_bind_eq_ok hdb
    obtain ⟨sections, hwalk, -⟩ := Outcome.exists_of_bind_eq_ok hdb
    refine ⟨⟨locale, Read.decoded_eq_ok hlocale⟩, ⟨alphabet, Read.decoded_eq_ok halphabet⟩,
      fun x hx => ?_⟩
    have hmem := mem_parts_conditionals.mpr ⟨rfl, List.ne_nil_of_mem hx⟩
    exact exists_texts_iff.mp (hcut.mp (htexts sections hwalk) _ hmem) _ rfl x hx

/-- A definition that has been written is loaded if its locales and alphabet are texts, and only
then. -/
theorem load_of_write {limit : Option Nat} {data : Array UInt8} (hd : d.Storable)
    (h : d.write limit = (.ok (), data)) :
    (d.Readable → ∃ db, Database.load data = .ok db ∧ db.Represents d) ∧
      ∀ db, Database.load data = .ok db → d.Readable := by
  have hcut := cut_of_zero_not_mem hd.zero
  obtain ⟨hok, hreadable⟩ := keeps_of_write hd.ids hd.classes h
  rw [hcut] at hok hreadable
  refine ⟨fun hr => ?_, hreadable⟩
  obtain ⟨db, hload, hkeeps⟩ := hok hr
  exact ⟨db, hload, hkeeps.represents hd.patterns⟩

/-- A definition that can be kept and whose locales and alphabet are texts comes back from the
database that it is written as. -/
theorem exists_load_of_write {limit : Option Nat} {data : Array UInt8} (hd : d.Storable)
    (hreadable : d.Readable) (h : d.write limit = (.ok (), data)) :
    ∃ db, Database.load data = .ok db ∧ db.Represents d :=
  (load_of_write hd h).1 hreadable

/-- A definition whose sections fit into 32 bits is written, if their headers say their sizes. -/
lemma exists_write (hexact : ∀ plan ∈ d.image, plan.Exact)
    (hpooling : ∀ plan ∈ d.image, plan.pooling = true ∨ plan.strings = [])
    (hfits : (SectionPlan.allBytes 0 d.image).length < UInt32.size) :
    ∃ data, d.write none = (.ok (), data) :=
  exists_assemble hexact hpooling hfits

/-- A definition with one conditional, one class, rules of both kinds and one word. -/
def sample : Definition where
  locale := [0x65, 0x6E]
  alphabet := [0x63, 0x6D, 0x75]
  conditionals := [⟨[0x72], 1, .set, [0x75, 0x73]⟩]
  classes := [⟨0x43, [[0x62], [0x63, 0x68]]⟩]
  spellingRules := [⟨0x79, [0x79], [0x69]⟩]
  letterRules := [⟨0x61, [0x61], [0x41]⟩, ⟨0x61, [0x61, 0x62], []⟩]
  dictionary := [⟨[0x61], [0x41]⟩]

theorem exists_load_of_write_sample : ∃ data db, sample.write none = (.ok (), data) ∧
    Database.load data = .ok db ∧ db.Represents sample := by
  have htext : ∀ s : String, IsText (Bytes.ofString s) := fun s => ⟨s, Bytes.toString?_ofString s⟩
  have hstorable : sample.Storable :=
    ⟨by decide, by decide, by decide, by decide⟩
  have hreadable : sample.Readable := by
    refine ⟨htext "en", htext "cmu", fun c hc => ?_⟩
    rw [List.mem_singleton.mp hc]
    exact htext "us"
  obtain ⟨data, hwrite⟩ := exists_write (d := sample) (by decide +kernel) (by decide +kernel)
    (by decide +kernel)
  obtain ⟨db, hload, hdb⟩ := exists_load_of_write hstorable hreadable hwrite
  exact ⟨data, db, hwrite, hload, hdb⟩

end Definition

end LetterToSound.Language
