import Mathlib
import LetterToSound.Language.Database
import LetterToSound.Language.Image
import LetterToSound.Proofs.Container.Reading

/-!
# The parts of a language database

Behind its header a language database is a sequence of parts, each written as a section of its own
and each followed by its strings. A part that stands in the data is loaded as a section that gives
it back, its strings cut at their first zero bytes: its conditionals at once, its tables whenever they
are asked for. A table of rules is read up to the first pattern of which nothing is left.
-/

namespace LetterToSound.Language

open Cursor

/-- What a section of a language database says. -/
inductive Part where
  | conditionals (cs : List Conditional)
  | letterClass (c : LetterClass)
  | spellingRules (group : UInt8) (rules : List Rule)
  | letterRules (group : UInt8) (rules : List Rule)
  | dictionary (entries : List Entry)

/-- A rule as a database keeps it. -/
def Rule.stored (r : Rule) : Bytes × Bytes := (r.pattern, r.replacement)

/-- A dictionary entry as a database keeps it. -/
def Entry.stored (e : Entry) : Bytes × Bytes := (e.word, e.phonemes)

/-- Two references in a row. -/
def pairData (p : Bytes × Bytes) : List Datum := [.pooled p.1, .pooled p.2]

/-- What two references in a row are read as. -/
def cutPair (p : Bytes × Bytes) : Bytes × Bytes := (Bytes.cut p.1, Bytes.cut p.2)

/-- A conditional with its locale cut at the first zero byte. Its name is not kept. -/
def Conditional.cut (c : Conditional) : Conditional := { c with locale := Bytes.cut c.locale }

/-- A class with its members cut at their first zero bytes. -/
def LetterClass.cut (c : LetterClass) : LetterClass := { c with members := c.members.map Bytes.cut }

/-- A rule with its strings cut at their first zero bytes. -/
def Rule.cut (r : Rule) : Rule :=
  { r with pattern := Bytes.cut r.pattern, replacement := Bytes.cut r.replacement }

/-- An entry with its strings cut at their first zero bytes. -/
def Entry.cut (e : Entry) : Entry := ⟨Bytes.cut e.word, Bytes.cut e.phonemes⟩

/-- The rules of a table that a database reads: those before the first empty pattern. -/
def readable (pairs : List (Bytes × Bytes)) : List (Bytes × Bytes) := pairs.takeWhile (·.1 ≠ [])

namespace Part

def tag : Part → SectionTag
  | conditionals _ => .conditionals
  | letterClass _ => .classDef
  | spellingRules _ _ => .spelling
  | letterRules _ _ => .letterToPhoneme
  | dictionary _ => .dictionary

/-- The number of entries, one that ends the table included. -/
def count : Part → Nat
  | conditionals cs => cs.length
  | letterClass c => c.members.length + 1
  | spellingRules _ rules => rules.length + 1
  | letterRules _ rules => rules.length + 1
  | dictionary entries => entries.length

/-- The pairs of a table of rules, with the empty pair that ends it. -/
def rulePairs (rules : List Rule) : List (Bytes × Bytes) := rules.map Rule.stored ++ [([], [])]

/-- What stands behind the number of entries. -/
def values : Part → List Datum
  | conditionals cs => cs.flatMap Image.conditional
  | letterClass c => .u8 c.id :: (c.members.map Datum.pooled ++ [.u32 0])
  | spellingRules group rules => .u8 group :: (rulePairs rules).flatMap pairData
  | letterRules group rules => .u8 group :: (rulePairs rules).flatMap pairData
  | dictionary entries => (entries.map Entry.stored).flatMap pairData

def size : Part → UInt32
  | conditionals cs => Layout.sectionSize Layout.headerSize cs.length Layout.conditionalSize
  | letterClass c =>
    Layout.sectionSize Layout.groupHeaderSize (c.members.length + 1) Layout.classMemberSize
  | spellingRules _ rules | letterRules _ rules =>
    Layout.sectionSize Layout.groupHeaderSize (rules.length + 1) Layout.ruleSize
  | dictionary entries =>
    Layout.sectionSize Layout.headerSize entries.length Layout.dictionaryEntrySize

/-- A part with its strings cut at their first zero bytes. -/
def cut : Part → Part
  | conditionals cs => conditionals (cs.map Conditional.cut)
  | letterClass c => letterClass c.cut
  | spellingRules group rules => spellingRules group (rules.map Rule.cut)
  | letterRules group rules => letterRules group (rules.map Rule.cut)
  | dictionary entries => dictionary (entries.map Entry.cut)

/-- How a part is written. -/
def plan (p : Part) : SectionPlan := .counted p.tag p.size true p.count p.values

end Part

namespace Definition

/-- The parts of the database of a definition. -/
def parts (d : Definition) : List Part :=
  (if d.conditionals.isEmpty then [] else [.conditionals d.conditionals]) ++
    d.classes.map .letterClass ++
    (groups d.spellingRules).map (fun (group, rules) => .spellingRules group rules) ++
    (groups d.letterRules).map (fun (group, rules) => .letterRules group rules) ++
    (if d.dictionary.isEmpty then [] else [.dictionary d.dictionary])

lemma flatMap_rule (rules : List Rule) :
    rules.flatMap Image.rule ++ [.pooled [], .pooled []] =
      (Part.rulePairs rules).flatMap pairData := by
  rw [Part.rulePairs, List.flatMap_append, List.flatMap_map]
  rfl

lemma flatMap_entry (entries : List Entry) :
    entries.flatMap Image.entry = (entries.map Entry.stored).flatMap pairData := by
  rw [List.flatMap_map]
  rfl

/-- The sections of a database are a header and the parts. -/
theorem image_eq (d : Definition) :
    d.image = Image.header d.locale d.alphabet :: d.parts.map Part.plan := by
  have hrules (tag : SectionTag) (rules : List Rule) (f : UInt8 → List Rule → Part)
      (hf : ∀ group members, Part.plan (f group members) = Image.ruleGroup tag group members) :
      ((groups rules).map fun (group, members) => f group members).map Part.plan =
        Image.ruleGroups tag rules := by
    simp [Image.ruleGroups, Function.comp_def, hf]
  have hspelling := hrules .spelling d.spellingRules .spellingRules fun group members => by
    rw [Image.ruleGroup, flatMap_rule]
    rfl
  have hletter := hrules .letterToPhoneme d.letterRules .letterRules fun group members => by
    rw [Image.ruleGroup, flatMap_rule]
    rfl
  have hconditionals : (if d.conditionals.isEmpty then [] else
      [Part.conditionals d.conditionals]).map Part.plan = Image.conditionals d.conditionals := by
    rw [Image.conditionals]
    split <;> rfl
  have hdictionary : (if d.dictionary.isEmpty then [] else
      [Part.dictionary d.dictionary]).map Part.plan = Image.dictionary d.dictionary := by
    rw [Image.dictionary, flatMap_entry]
    split <;> rfl
  have hclasses : (d.classes.map Part.letterClass).map Part.plan =
      d.classes.map Image.letterClass := by
    rw [List.map_map]
    rfl
  rw [image, parts, List.map_append, List.map_append, List.map_append, List.map_append,
    hconditionals, hclasses, hspelling, hletter, hdictionary]

end Definition

namespace Database

variable {c : Cursor} {place : Bytes → Nat} {ys : Bytes}

/-- The bytes of values when strings stand where `place` says. -/
abbrev dataBytes (place : Bytes → Nat) (values : List Datum) : Bytes :=
  values.flatMap (Datum.bytes place)

lemma dataBytes_pair (p : Bytes × Bytes) :
    dataBytes place (pairData p) =
      LittleEndian.encode 4 (place p.1) ++ LittleEndian.encode 4 (place p.2) := by
  simp [dataBytes, pairData, Datum.bytes]

/-- The conditional that a loader makes of an entry whose polarity, predicate and id are good. -/
def conditionOf (x : Conditional) : Except LoadError Condition :=
  (Read.decoded x.locale).map fun locale => ⟨x.id, x.polarity, locale⟩

lemma readCondition_eq {x : Conditional} (hid : x.id ≠ 0 ∧ x.id ≠ 255)
    (hs : Refers c.data place x.locale)
    (h : c.rest = dataBytes place (Image.conditional x) ++ ys) :
    readCondition c =
      (conditionOf x.cut, c.skip (dataBytes place (Image.conditional x)).length) := by
  have hbytes : dataBytes place (Image.conditional x) =
      x.id :: x.polarity.byte :: Layout.localePredicate ::
        LittleEndian.encode 4 (place x.locale) := by
    simp [dataBytes, Image.conditional, Datum.bytes]
  rw [hbytes] at h
  have h₁ := rest_skip_one h
  have h₂ := rest_skip_one h₁
  have h₃ := rest_skip_one h₂
  have hmade : makeCondition c.position x.id x.polarity.byte Layout.localePredicate
      (Bytes.cut x.locale) = conditionOf x.cut := by
    simp only [makeCondition, Polarity.ofByte?_byte, hid.1, hid.2, ne_eq, not_true_eq_false, or_self,
      if_false, conditionOf, Conditional.cut, Read.decoded]
    split <;> simp [*, Except.map]
  rw [readCondition]
  simp only [Read.bind_apply, Read.position, Read.u8_eq h, Read.u8_eq h₁, Read.u8_eq h₂,
    Read.reference_eq (c := ((c.skip 1).skip 1).skip 1) hs h₃, Read.lift, hmade, hbytes]
  simp

/-- A member of a class is checked and passed over, and so is the zero that ends the class. -/
lemma checkMember_eq {x : Datum} (hx : x = .u32 0 ∨ ∃ s, x = .pooled s ∧ Refers c.data place s)
    (h : c.rest = x.bytes place ++ ys) :
    checkMember c = (.ok (), c.skip (x.bytes place).length) := by
  rw [Datum.length_bytes]
  rcases hx with rfl | ⟨s, rfl, hs⟩
  · rw [checkMember, Read.bind_apply, Read.u32_eq (n := 0) h (by decide)]
    rfl
  · have hne : UInt32.ofNat (place s) ≠ 0 := by
      intro hzero
      have := congrArg UInt32.toNat hzero
      rw [UInt32.toNat_ofNat_of_lt' hs.fits] at this
      exact hs.ne_zero this
    rw [checkMember, Read.bind_apply, Read.u32_eq (n := place s) h hs.fits]
    simp only [if_neg hne, UInt32.toNat_ofNat_of_lt' hs.fits]
    exact Read.discard_eq (Read.stringAt_eq (c := c.skip 4) hs.string)

/-- Two references in a row are checked and passed over. -/
lemma checkPair_eq {p : Bytes × Bytes} (h₁ : Refers c.data place p.1) (h₂ : Refers c.data place p.2)
    (h : c.rest = dataBytes place (pairData p) ++ ys) :
    checkPair c = (.ok (), c.skip (dataBytes place (pairData p)).length) := by
  rw [dataBytes_pair, List.append_assoc] at h
  have hrest := rest_skip_encode h
  have hsecond := Read.reference_eq (c := c.skip 4) h₂ hrest
  rw [checkPair, Read.bind_apply, Read.discard_eq (Read.reference_eq h₁ h)]
  simp only [Read.discard_eq hsecond, dataBytes_pair, skip_skip, List.length_append,
    LittleEndian.length_encode]

/-- A table with a name stands behind its name, and its entries are passed over. -/
lemma readNamedTable_eq {α : Type} {check : Read Unit} {enc : α → Bytes} {xs : List α} {id : UInt8}
    (hcount : xs.length < UInt16.size)
    (h : c.rest = LittleEndian.encode 2 xs.length ++ (id :: (xs.flatMap enc ++ ys)))
    (hcheck : ∀ x ∈ xs, ∀ (d : Cursor) (zs : Bytes), d.data = c.data → d.rest = enc x ++ zs →
      check d = (.ok (), d.skip (enc x).length)) :
    readNamedTable check c =
      (.ok ⟨id, ⟨xs.length, c.position + 3⟩⟩, c.skip (3 + (xs.flatMap enc).length)) := by
  have h₁ := rest_skip_encode h
  have h₂ := rest_skip_one h₁
  have htimes := Read.discard_times_eq h₂ hcheck
  have hword : (UInt16.ofNat xs.length).toNat = xs.length := UInt16.toNat_ofNat_of_lt' hcount
  rw [readNamedTable, Read.bind_apply, Read.u16_eq h hcount]
  simp only [Read.bind_apply, Read.u8_eq h₁, Read.position, hword, htimes, Read.pure_apply]
  simp

lemma readTable_eq {α : Type} {check : Read Unit} {enc : α → Bytes} {xs : List α}
    (hcount : xs.length < UInt16.size)
    (h : c.rest = LittleEndian.encode 2 xs.length ++ (xs.flatMap enc ++ ys))
    (hcheck : ∀ x ∈ xs, ∀ (d : Cursor) (zs : Bytes), d.data = c.data → d.rest = enc x ++ zs →
      check d = (.ok (), d.skip (enc x).length)) :
    readTable check c = (.ok ⟨xs.length, c.position + 2⟩, c.skip (2 + (xs.flatMap enc).length)) := by
  have h₁ := rest_skip_encode h
  have htimes := Read.discard_times_eq h₁ hcheck
  have hword : (UInt16.ofNat xs.length).toNat = xs.length := UInt16.toNat_ofNat_of_lt' hcount
  rw [readTable, Read.bind_apply, Read.u16_eq h hcount]
  simp only [Read.bind_apply, Read.position, hword, htimes, Read.pure_apply]
  simp

/-- What a database reads at an offset where references to two strings stand. -/
lemma pairAt_eq {db : Database} {offset : Nat} {p : Bytes × Bytes}
    (h₁ : Refers db.data place p.1) (h₂ : Refers db.data place p.2)
    (h : db.data.toList.drop offset = dataBytes place (pairData p) ++ ys) :
    db.pairAt offset = cutPair p := by
  rw [dataBytes_pair, List.append_assoc] at h
  have hsecond : db.data.toList.drop (offset + 4) = LittleEndian.encode 4 (place p.2) ++ ys := by
    have hbehind := drop_add_length h
    rwa [LittleEndian.length_encode] at hbehind
  rw [pairAt, wordAt, wordAt, word?_eq h h₁.fits, word?_eq hsecond h₂.fits]
  simp [stringAt, cutPair, h₁.string, h₂.string]

/-- Pairs that stand one behind the other. -/
abbrev pairBytes (place : Bytes → Nat) (xs : List (Bytes × Bytes)) : Bytes :=
  xs.flatMap fun p => dataBytes place (pairData p)

lemma drop_pair {db : Database} {offset : Nat} {p : Bytes × Bytes} {xs : List (Bytes × Bytes)}
    (h : db.data.toList.drop offset = pairBytes place (p :: xs) ++ ys) :
    db.data.toList.drop (offset + 8) = pairBytes place xs ++ ys := by
  rw [pairBytes, List.flatMap_cons, List.append_assoc] at h
  have hbehind := drop_add_length h
  rwa [dataBytes_pair, List.length_append, LittleEndian.length_encode,
    LittleEndian.length_encode] at hbehind

/-- The rules of a table are read up to the first pair without a pattern; if there is none before, it is
the empty pair that ends the table. -/
lemma rulesFrom_eq {db : Database} {done xs : List (Bytes × Bytes)} {offset : Nat}
    (hs : ∀ p ∈ xs ++ [([], [])], Refers db.data place p.1 ∧ Refers db.data place p.2)
    (h : db.data.toList.drop offset = pairBytes place (xs ++ [([], [])]) ++ ys) :
    db.rulesFrom done offset (xs.length + 1) = done.reverse ++ readable (xs.map cutPair) := by
  induction xs generalizing done offset with
  | nil =>
    have hlast := hs ([], []) (by simp)
    rw [List.nil_append, pairBytes, List.flatMap_singleton] at h
    have hpair := pairAt_eq hlast.1 hlast.2 h
    rw [List.length_nil, rulesFrom, hpair]
    simp [cutPair, readable]
  | cons p xs ih =>
    have hfirst := hs p (by simp)
    have hrest : db.rulesFrom (cutPair p :: done) (offset + 8) (xs.length + 1) =
        (cutPair p :: done).reverse ++ readable (xs.map cutPair) :=
      ih (fun q hq => hs q (List.mem_cons_of_mem p hq)) (drop_pair h)
    rw [List.cons_append, pairBytes, List.flatMap_cons, List.append_assoc] at h
    have hpair := pairAt_eq hfirst.1 hfirst.2 h
    rw [List.length_cons, rulesFrom, hpair, List.map_cons, readable]
    by_cases hempty : (cutPair p).1 = []
    · rw [if_pos hempty, List.takeWhile_cons_of_neg (by simpa using hempty), List.append_nil]
    · rw [if_neg hempty, List.takeWhile_cons_of_pos (by simpa using hempty)]
      exact hrest.trans (by simp [readable])

lemma entries_eq {db : Database} {xs : List (Bytes × Bytes)} {offset : Nat}
    (hs : ∀ p ∈ xs, Refers db.data place p.1 ∧ Refers db.data place p.2)
    (h : db.data.toList.drop offset = pairBytes place xs ++ ys) :
    db.entries ⟨xs.length, offset⟩ = xs.map cutPair := by
  induction xs generalizing offset with
  | nil => rfl
  | cons p xs ih =>
    have hfirst := hs p List.mem_cons_self
    have hrest := ih (fun q hq => hs q (List.mem_cons_of_mem p hq)) (drop_pair h)
    rw [pairBytes, List.flatMap_cons, List.append_assoc] at h
    have hpair := pairAt_eq hfirst.1 hfirst.2 h
    rw [entries, List.length_cons, List.range_succ_eq_map, List.map_cons, List.map_map]
    rw [entries] at hrest
    simp only [Nat.zero_mul, Nat.add_zero, hpair, List.map_cons, List.cons.injEq, true_and]
    refine Eq.trans (List.map_congr_left fun i _ => ?_) hrest
    simp only [Function.comp, Layout.dictionaryEntrySize, Layout.stringReferenceSize]
    congr 1
    omega

/-- The members of a class are read up to the zero that ends it. -/
lemma membersFrom_eq {db : Database} {done members : List Bytes} {offset : Nat}
    (hs : ∀ s ∈ members, Refers db.data place s)
    (h : db.data.toList.drop offset =
      dataBytes place (members.map Datum.pooled ++ [.u32 0]) ++ ys) :
    db.membersFrom done offset = done.reverse ++ members.map Bytes.cut := by
  induction members generalizing done offset with
  | nil =>
    have hword := word?_eq (n := 0) (t := ys) h (by decide)
    rw [membersFrom, wordAt, hword]
    simp
  | cons s members ih =>
    have hfirst := hs s List.mem_cons_self
    rw [List.map_cons, List.cons_append, dataBytes, List.flatMap_cons, List.append_assoc] at h
    have hword := word?_eq (n := place s) h hfirst.fits
    have hbehind := drop_add_length h
    rw [Datum.length_bytes] at hbehind
    have hrest : db.membersFrom (Bytes.cut s :: done) (offset + 4) =
        (Bytes.cut s :: done).reverse ++ members.map Bytes.cut :=
      ih (fun t ht => hs t (List.mem_cons_of_mem s ht)) hbehind
    have hle : offset + 4 ≤ db.data.size := by
      by_contra hgt
      rw [word?, if_neg hgt] at hword
      cases hword
    rw [membersFrom, wordAt, hword, if_pos hle]
    simp only [Option.getD_some, if_neg hfirst.ne_zero, stringAt, hfirst.string]
    exact hrest.trans (by simp)

end Database

/-- A loaded section gives back what a part says. -/
inductive Gives (db : Database) : Section → Part → Prop
  | conditionals {found : List Condition} {cs : List Conditional}
      (h : cs.mapM Database.conditionOf = .ok found) :
      Gives db (.conditionals found) (.conditionals cs)
  | letterClass {t : NamedTable} {c : LetterClass} (hid : t.id = c.id)
      (hmembers : db.membersFrom [] t.table.offset = c.members) :
      Gives db (.letterClass t) (.letterClass c)
  | spellingRules {t : NamedTable} {group : UInt8} {rules : List Rule} (hid : t.id = group)
      (hentries : t.table.entries = rules.length + 1)
      (hrules : db.rules t = readable (rules.map Rule.stored)) :
      Gives db (.spellingRules t) (.spellingRules group rules)
  | letterRules {t : NamedTable} {group : UInt8} {rules : List Rule} (hid : t.id = group)
      (hentries : t.table.entries = rules.length + 1)
      (hrules : db.rules t = readable (rules.map Rule.stored)) :
      Gives db (.letterRules t) (.letterRules group rules)
  | dictionary {t : Table} {entries : List Entry}
      (hentries : db.entries t = entries.map Entry.stored) :
      Gives db (.dictionary t) (.dictionary entries)

namespace Part

/-- A part whose conditionals have ids that a loader takes. -/
def Numbered (p : Part) : Prop := ∀ cs, p = .conditionals cs → ∀ c ∈ cs, c.id ≠ 0 ∧ c.id ≠ 255

/-- Whether the locales of a part can be loaded as text. -/
def texts : Part → Except LoadError (List Condition)
  | conditionals cs => cs.mapM Database.conditionOf
  | _ => .ok []

lemma plan_of_exact {p : Part} (h : p.plan.Exact) :
    p.plan = ⟨p.tag.bytes, p.size, true, .u16 (UInt16.ofNat p.count) :: p.values, none⟩ ∧
      p.count < UInt16.size :=
  SectionPlan.counted_of_exact h

lemma mem_pairData {s : Bytes} {p : Bytes × Bytes} {xs : List (Bytes × Bytes)} (hp : p ∈ xs)
    (hs : s = p.1 ∨ s = p.2) : Datum.pooled s ∈ xs.flatMap pairData := by
  rw [List.mem_flatMap]
  exact ⟨p, hp, by simpa [pairData] using hs⟩

lemma dataBytes_pairs (place : Bytes → Nat) (xs : List (Bytes × Bytes)) :
    Database.dataBytes place (xs.flatMap pairData) = Database.pairBytes place xs := by
  rw [Database.dataBytes, List.flatMap_assoc]

variable {c : Cursor} {place : Bytes → Nat} {ys : Bytes}

/-- The table of a class behind its tag. -/
lemma readClass_eq {x : LetterClass} (hcount : x.members.length + 1 < UInt16.size)
    (hs : ∀ s ∈ x.members, Refers c.data place s)
    (h : c.rest = LittleEndian.encode 2 (x.members.length + 1) ++
      (Database.dataBytes place (letterClass x).values ++ ys)) :
    ∃ t, Database.readNamedTable Database.checkMember c =
        (.ok t, c.skip (2 + (Database.dataBytes place (letterClass x).values).length)) ∧
      t.id = x.id ∧ ∀ db : Database, db.data = c.data →
        db.membersFrom [] t.table.offset = x.cut.members := by
  let xs := x.members.map Datum.pooled ++ [.u32 0]
  have hlength : xs.length = x.members.length + 1 := by simp [xs]
  have hvalues : Database.dataBytes place (letterClass x).values =
      x.id :: xs.flatMap (Datum.bytes place) := rfl
  rw [hvalues, ← hlength] at h
  have hcheck : ∀ d ∈ xs, ∀ (e : Cursor) (zs : Bytes), e.data = c.data →
      e.rest = d.bytes place ++ zs →
      Database.checkMember e = (.ok (), e.skip (d.bytes place).length) := by
    intro d hd e zs hdata hrest
    refine Database.checkMember_eq ?_ hrest
    rw [hdata]
    rcases List.mem_append.mp hd with hd | hd
    · obtain ⟨s, hmem, rfl⟩ := List.mem_map.mp hd
      exact .inr ⟨s, rfl, hs s hmem⟩
    · exact .inl (List.mem_singleton.mp hd)
  have hread := Database.readNamedTable_eq (hlength ▸ hcount) h hcheck
  refine ⟨⟨x.id, ⟨xs.length, c.position + 3⟩⟩, hread.trans ?_, rfl, fun db hdb => ?_⟩
  · have hskip : 3 + (xs.flatMap (Datum.bytes place)).length =
        2 + ((xs.flatMap (Datum.bytes place)).length + 1) := by omega
    rw [hvalues, List.length_cons, hskip]
  · have hrest := rest_skip_one (rest_skip_encode h)
    rw [← hdb] at hs
    rw [rest, data_skip, data_skip, ← hdb] at hrest
    exact Database.membersFrom_eq hs hrest

/-- The table of a group of rules behind its tag. -/
lemma readRules_eq {group : UInt8} {rules : List Rule} (hcount : rules.length + 1 < UInt16.size)
    (hs : ∀ s, Datum.pooled s ∈ (rulePairs rules).flatMap pairData → Refers c.data place s)
    (h : c.rest = LittleEndian.encode 2 (rules.length + 1) ++
      (Database.dataBytes place (.u8 group :: (rulePairs rules).flatMap pairData) ++ ys)) :
    ∃ t, Database.readNamedTable Database.checkPair c = (.ok t, c.skip
        (2 + (Database.dataBytes place (.u8 group :: (rulePairs rules).flatMap pairData)).length)) ∧
      t.id = group ∧ t.table.entries = (rules.map Rule.cut).length + 1 ∧
      ∀ db : Database, db.data = c.data →
        db.rules t = readable ((rules.map Rule.cut).map Rule.stored) := by
  let xs := rulePairs rules
  have hlength : xs.length = rules.length + 1 := by simp [xs, rulePairs]
  have hvalues : Database.dataBytes place (.u8 group :: xs.flatMap pairData) =
      group :: Database.pairBytes place xs := by
    rw [← dataBytes_pairs]
    rfl
  have hpairs : ∀ p ∈ xs, Refers c.data place p.1 ∧ Refers c.data place p.2 := fun p hp =>
    ⟨hs p.1 (mem_pairData hp (.inl rfl)), hs p.2 (mem_pairData hp (.inr rfl))⟩
  rw [hvalues, ← hlength] at h
  have hread := Database.readNamedTable_eq (hlength ▸ hcount) h fun p hp e zs hdata hrest =>
    Database.checkPair_eq (hdata ▸ (hpairs p hp).1) (hdata ▸ (hpairs p hp).2) hrest
  refine ⟨⟨group, ⟨xs.length, c.position + 3⟩⟩, hread.trans ?_, rfl, ?_, fun db hdb => ?_⟩
  · have hskip : 3 + (Database.pairBytes place xs).length =
        2 + ((Database.pairBytes place xs).length + 1) := by omega
    rw [hvalues, List.length_cons, hskip]
  · rw [List.length_map]
    exact hlength
  · have hrest := rest_skip_one (rest_skip_encode h)
    rw [← hdb] at hpairs
    rw [rest, data_skip, data_skip, ← hdb] at hrest
    have hrules : db.rulesFrom [] (c.position + 3) ((rules.map Rule.stored).length + 1) =
        readable ((rules.map Rule.stored).map cutPair) := Database.rulesFrom_eq hpairs hrest
    have hcut : (rules.map Rule.stored).map cutPair = (rules.map Rule.cut).map Rule.stored := by
      simp [Function.comp_def, Rule.stored, Rule.cut, cutPair]
    rw [List.length_map, hcut] at hrules
    rw [Database.rules, hlength]
    exact hrules

/-- Conditionals behind their tag are read if their locales are texts; the first that is none is what
goes wrong. -/
lemma readConditionals_eq {cs : List Conditional} (hcount : cs.length < UInt16.size)
    (hids : ∀ x ∈ cs, x.id ≠ 0 ∧ x.id ≠ 255) (hs : ∀ x ∈ cs, Refers c.data place x.locale)
    (h : c.rest = LittleEndian.encode 2 cs.length ++
      (Database.dataBytes place (conditionals cs).values ++ ys)) :
    (∀ found, (cs.map Conditional.cut).mapM Database.conditionOf = .ok found →
      Database.readBody .conditionals c = (.ok (.conditionals found),
        c.skip (2 + (Database.dataBytes place (conditionals cs).values).length))) ∧
    ∀ e, (cs.map Conditional.cut).mapM Database.conditionOf = .error e →
      (Database.readBody .conditionals c).1 = .error e := by
  have hvalues : Database.dataBytes place (conditionals cs).values =
      cs.flatMap fun x => Database.dataBytes place (Image.conditional x) := List.flatMap_assoc
  rw [hvalues] at h ⊢
  rw [List.mapM_map]
  have hrest := rest_skip_encode h
  have hstep : ∀ x ∈ cs, ∀ (d : Cursor) (zs : Bytes), d.data = c.data →
      d.rest = Database.dataBytes place (Image.conditional x) ++ zs →
      Database.readCondition d = ((Database.conditionOf ∘ Conditional.cut) x,
        d.skip (Database.dataBytes place (Image.conditional x)).length) := by
    intro x hx d zs hdata hd
    refine Database.readCondition_eq (hids x hx) ?_ hd
    rw [hdata]
    exact hs x hx
  have hword : (UInt16.ofNat cs.length).toNat = cs.length := UInt16.toNat_ofNat_of_lt' hcount
  rw [Database.readBody, Read.bind_apply, Read.u16_eq h hcount]
  simp only [Read.bind_apply, hword]
  constructor
  · intro found hfound
    simp only [Read.times_eq_of_ok hrest hstep hfound, Read.pure_apply, skip_skip]
  · intro e he
    have htimes := Read.times_eq_of_error hrest hstep he
    split
    · rename_i hread
      rw [hread] at htimes
      cases htimes
    · rename_i hread
      rw [hread] at htimes
      cases htimes
      rfl

/-- The table of a dictionary behind its tag. -/
lemma readDictionary_eq {entries : List Entry} (hcount : entries.length < UInt16.size)
    (hs : ∀ s, Datum.pooled s ∈ (dictionary entries).values → Refers c.data place s)
    (h : c.rest = LittleEndian.encode 2 entries.length ++
      (Database.dataBytes place (dictionary entries).values ++ ys)) :
    ∃ t, Database.readTable Database.checkPair c =
        (.ok t, c.skip (2 + (Database.dataBytes place (dictionary entries).values).length)) ∧
      ∀ db : Database, db.data = c.data →
        db.entries t = (entries.map Entry.cut).map Entry.stored := by
  have hlength : (entries.map Entry.stored).length = entries.length := List.length_map _
  have hpairs : ∀ p ∈ entries.map Entry.stored, Refers c.data place p.1 ∧ Refers c.data place p.2 :=
    fun p hp => ⟨hs p.1 (mem_pairData hp (.inl rfl)), hs p.2 (mem_pairData hp (.inr rfl))⟩
  rw [values, dataBytes_pairs, ← hlength] at h
  have hread := Database.readTable_eq (hlength ▸ hcount) h fun p hp e zs hdata hrest =>
    Database.checkPair_eq (hdata ▸ (hpairs p hp).1) (hdata ▸ (hpairs p hp).2) hrest
  refine ⟨⟨(entries.map Entry.stored).length, c.position + 2⟩, ?_, fun db hdb => ?_⟩
  · rw [hread, values, dataBytes_pairs]
  · have hrest := rest_skip_encode h
    rw [← hdb] at hpairs
    rw [rest, data_skip, ← hdb] at hrest
    refine (Database.entries_eq hpairs hrest).trans ?_
    simp [Function.comp_def, Entry.stored, Entry.cut, cutPair]

/-- What stands behind the tag of a part is read as a section that gives the part back. -/
lemma readBody_values {p : Part} (hp : p.Numbered) (hcount : p.count < UInt16.size)
    (hs : ∀ s, Datum.pooled s ∈ p.values → Refers c.data place s)
    (h : c.rest = LittleEndian.encode 2 p.count ++ (Database.dataBytes place p.values ++ ys)) :
    (∀ found, p.cut.texts = .ok found → ∃ sec,
      Database.readBody p.tag c =
        (.ok sec, c.skip (2 + (Database.dataBytes place p.values).length)) ∧
      ∀ db : Database, db.data = c.data → Gives db sec p.cut) ∧
    ∀ e, p.cut.texts = .error e → (Database.readBody p.tag c).1 = .error e := by
  cases p with
  | conditionals cs =>
    obtain ⟨hok, herror⟩ := readConditionals_eq hcount (hp cs rfl) (fun x hx => hs x.locale
      (List.mem_flatMap.mpr ⟨x, hx, by simp [Image.conditional]⟩)) h
    exact ⟨fun found hfound => ⟨.conditionals found, hok found hfound, fun db _ =>
      .conditionals hfound⟩, herror⟩
  | letterClass x =>
    refine ⟨fun found _ => ?_, fun e he => by cases he⟩
    obtain ⟨t, hread, hid, hmembers⟩ := readClass_eq hcount (fun s hmem => hs s (by
      simpa [values] using hmem)) h
    refine ⟨.letterClass t, ?_, fun db hdb => .letterClass hid (hmembers db hdb)⟩
    rw [tag, Database.readBody, Read.bind_apply, hread]
    rfl
  | spellingRules group rules =>
    refine ⟨fun found _ => ?_, fun e he => by cases he⟩
    obtain ⟨t, hread, hid, hentries, hrules⟩ := readRules_eq hcount (fun s hmem => hs s (by
      simpa [values] using hmem)) h
    refine ⟨.spellingRules t, ?_, fun db hdb => .spellingRules hid hentries (hrules db hdb)⟩
    rw [tag, Database.readBody, Read.bind_apply, hread]
    rfl
  | letterRules group rules =>
    refine ⟨fun found _ => ?_, fun e he => by cases he⟩
    obtain ⟨t, hread, hid, hentries, hrules⟩ := readRules_eq hcount (fun s hmem => hs s (by
      simpa [values] using hmem)) h
    refine ⟨.letterRules t, ?_, fun db hdb => .letterRules hid hentries (hrules db hdb)⟩
    rw [tag, Database.readBody, Read.bind_apply, hread]
    rfl
  | dictionary entries =>
    refine ⟨fun found _ => ?_, fun e he => by cases he⟩
    obtain ⟨t, hread, hentries⟩ := readDictionary_eq hcount hs h
    refine ⟨.dictionary t, ?_, fun db hdb => .dictionary (hentries db hdb)⟩
    rw [tag, Database.readBody, Read.bind_apply, hread]
    rfl

/-- A part that stands at the cursor is read as a section that gives it back, unless one of its
locales is no text. -/
theorem readSection_plan {p : Part} {c : Cursor} {ys : Bytes} (hp : p.Numbered)
    (hexact : p.plan.Exact) (hsize : c.data.size < UInt32.size)
    (h : c.rest = p.plan.bytes c.position ++ ys) :
    (∀ found, p.cut.texts = .ok found → ∃ sec,
      Walk.readSection Database.readBody c =
        (.ok sec, c.skip (p.plan.magic ++ p.plan.values c.position).length) ∧
      ∀ db : Database, db.data = c.data → Gives db sec p.cut) ∧
    ∀ e, p.cut.texts = .error e → (Walk.readSection Database.readBody c).1 = .error e := by
  obtain ⟨hplan, hcount⟩ := plan_of_exact hexact
  have hpooling : p.plan.pooling = true := by rw [hplan]
  have hs : ∀ s, Datum.pooled s ∈ p.values → Refers c.data
      (Pool.place (p.plan.poolStart c.position) p.plan.strings) s := by
    intro s hmem
    refine SectionPlan.refers_of_rest hexact hpooling hsize h ?_
    refine SectionPlan.mem_strings ?_
    rw [hplan]
    exact List.mem_cons_of_mem _ hmem
  generalize hplace : Pool.place (p.plan.poolStart c.position) p.plan.strings = place at hs
  have hvalues : p.plan.values c.position =
      LittleEndian.encode 2 p.count ++ Database.dataBytes place p.values := by
    rw [SectionPlan.values, hplace, hplan, List.flatMap_cons, Datum.bytes,
      UInt16.toNat_ofNat_of_lt' hcount]
  have hmagic : p.plan.magic = p.tag.bytes := by rw [hplan]
  rw [SectionPlan.bytes_eq_of_pooling hpooling, hvalues, hmagic, List.append_assoc,
    List.append_assoc, List.append_assoc] at h
  have hrest := rest_skip h
  rw [SectionTag.length_bytes] at hrest
  obtain ⟨hok, herror⟩ := readBody_values (c := c.skip 3) hp hcount hs hrest
  rw [Walk.readSection, Read.bind_apply, Read.tag_eq h]
  refine ⟨fun found hfound => ?_, herror⟩
  obtain ⟨sec, hread, hgives⟩ := hok found hfound
  refine ⟨sec, ?_, hgives⟩
  rw [hmagic, hvalues]
  simp only [hread, skip_skip, List.length_append, SectionTag.length_bytes,
    LittleEndian.length_encode]

end Part

end LetterToSound.Language
