import LetterToSound.Container.Cursor
import LetterToSound.Language.Condition

/-!
# Loaded language databases

Loading goes through the sections once and checks every reference to a string. Afterwards classes,
rules and the dictionary are read out of the data when they are asked for.
-/

namespace LetterToSound.Language

/-- The place of a table whose entries are counted. -/
structure Table where
  /-- The number of entries, one that ends the table included. -/
  entries : Nat
  offset : Nat
deriving DecidableEq, Repr

/-- The table of a class or of a group of rules. -/
structure NamedTable where
  id : UInt8
  table : Table
deriving DecidableEq, Repr

/-- What the loader keeps of a section. -/
inductive Section where
  | strings
  | conditionals (cs : List Condition)
  | letterClass (c : NamedTable)
  | letterRules (g : NamedTable)
  | spellingRules (g : NamedTable)
  | dictionary (t : Table)
deriving DecidableEq, Repr

namespace Section

def conditions : Section → List Condition
  | conditionals cs => cs
  | _ => []

def letterClass? : Section → Option NamedTable
  | letterClass c => some c
  | _ => none

def letterRules? : Section → Option NamedTable
  | letterRules g => some g
  | _ => none

def spellingRules? : Section → Option NamedTable
  | spellingRules g => some g
  | _ => none

def dictionary? : Section → Option Table
  | dictionary t => some t
  | _ => none

end Section

structure Database where
  data : Array UInt8
  locale : String
  alphabet : String
  /-- The sections in the order of the data. -/
  sections : List Section
deriving Inhabited

namespace Database

def name : String := "language database"

/-- A conditional of what its entry holds. Id 0 and id 255 are never given. -/
def makeCondition (start : Nat) (id polarity predicate : UInt8) (value : Bytes) :
    Except LoadError Condition :=
  let malformed := LoadError.malformedEntry SectionTag.conditionals.name start
  match Polarity.ofByte? polarity with
  | none => .error malformed
  | some polarity =>
    if predicate ≠ Layout.localePredicate ∨ id = 0 ∨ id = 255 then .error malformed
    else match Bytes.toString? value with
      | none => .error .invalidUtf8
      | some locale => .ok ⟨id, polarity, locale⟩

def readCondition : Read Condition := do
  let start ← Read.position
  let id ← Read.u8
  let polarity ← Read.u8
  let predicate ← Read.u8
  let value ← Read.reference
  Read.lift (makeCondition start id polarity predicate value)

/-- A member of a class: a reference, or zero at the end. -/
def checkMember : Read Unit := do
  let offset ← Read.u32
  if offset = 0 then pure () else discard (Read.stringAt offset.toNat)

/-- Two references, as rules and dictionary entries have them. -/
def checkPair : Read Unit := do
  discard Read.reference
  discard Read.reference

/-- A table with a name whose entries are checked one by one. -/
def readNamedTable (check : Read Unit) : Read NamedTable := do
  let entries ← Read.u16
  let id ← Read.u8
  let offset ← Read.position
  discard (Read.times entries.toNat check)
  return ⟨id, ⟨entries.toNat, offset⟩⟩

def readTable (check : Read Unit) : Read Table := do
  let entries ← Read.u16
  let offset ← Read.position
  discard (Read.times entries.toNat check)
  return ⟨entries.toNat, offset⟩

/-- What follows the tag of a section. -/
def readBody : SectionTag → Read Section
  | .strings => do
    Read.skipStrings
    return .strings
  | .conditionals => do
    let entries ← Read.u16
    return .conditionals (← Read.times entries.toNat readCondition)
  | .classDef => do return .letterClass (← readNamedTable checkMember)
  | .letterToPhoneme => do return .letterRules (← readNamedTable checkPair)
  | .spelling => do return .spellingRules (← readNamedTable checkPair)
  | .dictionary => do return .dictionary (← readTable checkPair)
  | tag => throw (.unsupportedSection tag name)

theorem forward_readCondition : readCondition.Forward :=
  .bind .position fun _ => .bind .u8 fun _ => .bind .u8 fun _ => .bind .u8 fun _ =>
    .bind .reference fun _ => .lift _

theorem forward_checkMember : checkMember.Forward :=
  .bind .u32 fun offset => by
    split
    · exact .pure _
    · exact .discard (.stringAt _)

theorem forward_checkPair : checkPair.Forward :=
  .bind (.discard .reference) fun _ => .discard .reference

theorem forward_readNamedTable {check : Read Unit} (h : check.Forward) :
    (readNamedTable check).Forward :=
  .bind .u16 fun _ => .bind .u8 fun _ => .bind .position fun _ =>
    .bind (.discard (h.times _)) fun _ => .pure _

theorem forward_readTable {check : Read Unit} (h : check.Forward) : (readTable check).Forward :=
  .bind .u16 fun _ => .bind .position fun _ => .bind (.discard (h.times _)) fun _ => .pure _

theorem forward_readBody (tag : SectionTag) : (readBody tag).Forward := by
  cases tag with
  | strings => exact .bind .skipStrings fun _ => .pure _
  | conditionals => exact .bind .u16 fun _ => .bind (forward_readCondition.times _) fun _ => .pure _
  | classDef => exact .bind (forward_readNamedTable forward_checkMember) fun _ => .pure _
  | letterToPhoneme => exact .bind (forward_readNamedTable forward_checkPair) fun _ => .pure _
  | spelling => exact .bind (forward_readNamedTable forward_checkPair) fun _ => .pure _
  | dictionary => exact .bind (forward_readTable forward_checkPair) fun _ => .pure _
  | _ => exact .throw _

/-- Locale and alphabet. -/
def readHeader : Read (String × String) := do
  Read.header Layout.languageMagic name
  let locale ← Read.text
  let alphabet ← Read.text
  return (locale, alphabet)

/-- Loads a database from its bytes. -/
def load (data : Array UInt8) : Except LoadError Database :=
  match readHeader (Cursor.start data) with
  | (.error e, _) => .error e
  | (.ok (locale, alphabet), c) =>
    (Walk.sections readBody forward_readBody c).map fun sections =>
      ⟨data, locale, alphabet, sections⟩

def conditions (db : Database) : List Condition := db.sections.flatMap Section.conditions

def classTables (db : Database) : List NamedTable := db.sections.filterMap Section.letterClass?

def letterGroups (db : Database) : List NamedTable := db.sections.filterMap Section.letterRules?

def spellingGroups (db : Database) : List NamedTable := db.sections.filterMap Section.spellingRules?

def dictionaries (db : Database) : List Table := db.sections.filterMap Section.dictionary?

/-- The number at an offset; zero where there is none. -/
def wordAt (db : Database) (offset : Nat) : Nat := (Cursor.word? db.data offset).getD 0

/-- The string at an offset; empty where there is none. -/
def stringAt (db : Database) (offset : Nat) : Bytes := (Cursor.string? db.data offset).getD []

/-- The strings that two references in a row stand for. -/
def pairAt (db : Database) (offset : Nat) : Bytes × Bytes :=
  (db.stringAt (db.wordAt offset), db.stringAt (db.wordAt (offset + 4)))

/-- The strings from an offset on up to a zero reference, those before in reverse order. -/
def membersFrom (db : Database) (done : List Bytes) (offset : Nat) : List Bytes :=
  if offset + 4 ≤ db.data.size then
    let member := db.wordAt offset
    if member = 0 then done.reverse
    else membersFrom db (db.stringAt member :: done) (offset + 4)
  else done.reverse
termination_by db.data.size - offset

/-- The classes by the ids of their tables, in the order of the data. -/
def classIds (db : Database) : List UInt8 := db.classTables.map NamedTable.id

/-- The table of a class. The last one of an id counts. -/
def classTable? (db : Database) (id : UInt8) : Option NamedTable :=
  (db.classTables.filter (·.id = id)).getLast?

/-- The members of a class in order; none if the class is not defined. -/
def members (db : Database) (id : UInt8) : List Bytes :=
  match db.classTable? id with
  | none => []
  | some c => db.membersFrom [] c.table.offset

/-- At most `n` rules from an offset on, up to one with an empty pattern; those before in reverse
order. -/
def rulesFrom (db : Database) (done : List (Bytes × Bytes)) (offset : Nat) :
    Nat → List (Bytes × Bytes)
  | 0 => done.reverse
  | n + 1 =>
    let rule := db.pairAt offset
    if rule.1 = [] then done.reverse
    else rulesFrom db (rule :: done) (offset + Layout.ruleSize) n

/-- The rules of a group, as patterns and replacements. -/
def rules (db : Database) (group : NamedTable) : List (Bytes × Bytes) :=
  db.rulesFrom [] group.table.offset group.table.entries

/-- The entries of a dictionary table. -/
def entries (db : Database) (t : Table) : List (Bytes × Bytes) :=
  (List.range t.entries).map fun i => db.pairAt (t.offset + i * Layout.dictionaryEntrySize)

/-- All words with their transcriptions. -/
def dictionary (db : Database) : List (Bytes × Bytes) := db.dictionaries.flatMap db.entries

/-- The transcription of a word. The first one counts. -/
def lookup (db : Database) (word : Bytes) : Option Bytes :=
  (db.dictionary.find? (·.1 = word)).map Prod.snd

end Database

end LetterToSound.Language
