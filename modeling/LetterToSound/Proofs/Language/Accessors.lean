import Mathlib
import LetterToSound.Proofs.Language.Tables

/-!
# What the accessors read

The accessors of a loaded database go by offsets and ask no questions: a word that is not in the data is
zero for them, and a string that is not there is empty. Here each accessor is stated over any way of
looking into the data, so that the same steps can also be taken in a guarded way, in which a word outside
of the counted entries of a table is a failure and so is a string that is not there. Where the guarded
way ends without a failure, the accessor has read nothing but what loading has checked.
-/

namespace LetterToSound.Language

open Cursor

namespace Database

variable {db : Database} {offset n : Nat} {s : Bytes}

lemma wordAt_of_holds (h : HoldsWord db.data offset n) : db.wordAt offset = n := by
  rw [wordAt, word?_eq_some_iff.mpr h]
  rfl

lemma stringAt_of_holds (h : HoldsString db.data offset s) : db.stringAt offset = s := by
  rw [stringAt, string?_eq_some_iff.mpr h]
  rfl

/-- A word that is looked for is there unless it is zero. -/
lemma holds_wordAt (hne : db.wordAt offset ≠ 0) : HoldsWord db.data offset (db.wordAt offset) := by
  cases hword : word? db.data offset with
  | none =>
    rw [wordAt, hword] at hne
    exact absurd rfl hne
  | some n =>
    have hn := word?_eq_some_iff.mp hword
    rwa [wordAt_of_holds hn]

end Database

/-- A way of looking into the data, for the word and for the string at an offset. -/
structure Access (m : Type → Type) where
  word : Nat → m Nat
  string : Nat → m Bytes

namespace Access

variable {m : Type → Type} [Monad m]

/-- The strings that two references in a row stand for. -/
def pair (a : Access m) (offset : Nat) : m (Bytes × Bytes) := do
  let first ← a.string (← a.word offset)
  let second ← a.string (← a.word (offset + Layout.stringReferenceSize))
  return (first, second)

/-- At most `n` rules from an offset on, up to one with an empty pattern. -/
def rulesFrom (a : Access m) (done : List (Bytes × Bytes)) (offset : Nat) :
    Nat → m (List (Bytes × Bytes))
  | 0 => pure done.reverse
  | n + 1 => do
    let rule ← a.pair offset
    if rule.1 = [] then pure done.reverse
    else rulesFrom a (rule :: done) (offset + Layout.ruleSize) n

/-- The rules of a group. -/
def rules (a : Access m) (group : NamedTable) : m (List (Bytes × Bytes)) :=
  a.rulesFrom [] group.table.offset group.table.entries

/-- The entries of a dictionary table. -/
def entries (a : Access m) (t : Table) : m (List (Bytes × Bytes)) :=
  (List.range t.entries).mapM fun i => a.pair (t.offset + i * Layout.dictionaryEntrySize)

/-- At most `n` strings from an offset on, up to a zero reference. -/
def membersFrom (a : Access m) (done : List Bytes) (offset : Nat) : Nat → m (List Bytes)
  | 0 => pure done.reverse
  | n + 1 => do
    let member ← a.word offset
    if member = 0 then pure done.reverse
    else membersFrom a ((← a.string member) :: done) (offset + Layout.classMemberSize) n

/-- The members of a class, at most `n` of them. -/
def members (a : Access m) (n : Nat) (c : NamedTable) : m (List Bytes) :=
  a.membersFrom [] c.table.offset n

/-- How the database looks into its data. What is not there is zero or empty. -/
def plain (db : Database) : Access Id := ⟨db.wordAt, db.stringAt⟩

/-- The same, with offsets that are counted in 32 bits and start again at zero behind the last one. -/
def wrapped (db : Database) : Access Id where
  word offset := db.wordAt (offset % UInt32.size)
  string offset := db.stringAt (offset % UInt32.size)

/-- Words are looked for between two offsets only, and what is not there is a failure. -/
def guarded (data : Array UInt8) (start stop : Nat) : Access Option where
  word offset := if start ≤ offset ∧ offset + 4 ≤ stop then word? data offset else none
  string := string? data

/-- The accessors for the entries of a table, but not beyond them. -/
def within (data : Array UInt8) (t : Table) (size : Nat) : Access Option :=
  guarded data t.offset (t.stop size)

variable (db : Database)

lemma rulesFrom_plain (done : List (Bytes × Bytes)) (offset n : Nat) :
    (plain db).rulesFrom done offset n = db.rulesFrom done offset n := by
  induction n generalizing done offset with
  | zero => rfl
  | succ n ih =>
    rw [Database.rulesFrom, ← ih]
    rfl

/-- In the plain way, these are the rules that the database gives. -/
lemma rules_plain (group : NamedTable) : (plain db).rules group = db.rules group :=
  rulesFrom_plain db [] _ _

lemma entries_plain (t : Table) : (plain db).entries t = db.entries t :=
  List.idRun_mapM

/-- The walk along the members of a class ends in the data, so that it takes no more steps than fit. -/
lemma membersFrom_plain {done : List Bytes} {offset n : Nat}
    (hn : db.data.size < offset + 4 * (n + 1)) :
    (plain db).membersFrom done offset n = db.membersFrom done offset := by
  induction n generalizing done offset with
  | zero =>
    rw [Database.membersFrom, if_neg (by omega)]
    rfl
  | succ n ih =>
    rw [Database.membersFrom]
    by_cases hin : offset + 4 ≤ db.data.size
    · rw [if_pos hin]
      change (if db.wordAt offset = 0 then done.reverse
        else (plain db).membersFrom (db.stringAt (db.wordAt offset) :: done) (offset + 4) n) = _
      rw [ih (by omega)]
    · have hzero : db.wordAt offset = 0 := by
        by_contra hne
        exact hin (Database.holds_wordAt hne).add_le
      rw [if_neg hin]
      exact if_pos hzero

lemma members_plain (c : NamedTable) :
    (plain db).members db.data.size c = db.membersFrom [] c.table.offset :=
  membersFrom_plain db (by omega)

lemma mapM_eq_pure {α β : Type} [LawfulMonad m] {f : α → m β} {g : α → β} {l : List α}
    (h : ∀ x ∈ l, f x = pure (g x)) : l.mapM f = pure (l.map g) := by
  induction l with
  | nil => rw [List.mapM_nil, List.map_nil]
  | cons x l ih =>
    rw [List.mapM_cons, h x List.mem_cons_self, pure_bind,
      ih fun y hy => h y (List.mem_cons_of_mem x hy), pure_bind, List.map_cons]

/-- What stands in the data is found, words between two offsets. -/
structure Finds (a : Access m) (data : Array UInt8) (start stop : Nat) : Prop where
  word : ∀ {offset n : Nat}, start ≤ offset → offset + 4 ≤ stop → HoldsWord data offset n →
    a.word offset = pure n
  string : ∀ {offset : Nat} {s : Bytes}, HoldsString data offset s → a.string offset = pure s

lemma plain_finds (start stop : Nat) : (plain db).Finds db.data start stop where
  word _ _ h := Database.wordAt_of_holds h
  string h := Database.stringAt_of_holds h

/-- Offsets of data that has less than 4 GiB do not wrap around. -/
lemma wrapped_finds (hsize : db.data.size < UInt32.size) (start stop : Nat) :
    (wrapped db).Finds db.data start stop where
  word {offset _} _ _ h := by
    have hin := h.add_le
    change db.wordAt (offset % UInt32.size) = _
    rw [Nat.mod_eq_of_lt (by omega), Database.wordAt_of_holds h]
    rfl
  string {offset _} h := by
    change db.stringAt (offset % UInt32.size) = _
    rw [Nat.mod_eq_of_lt (h.lt.trans hsize), Database.stringAt_of_holds h]
    rfl

/-- The walk along the members of a class does not wrap around either, wherever it goes. -/
lemma membersFrom_wrapped (hsize : db.data.size < UInt32.size) (done : List Bytes) {offset n : Nat}
    (hoffset : offset ≤ db.data.size) :
    (wrapped db).membersFrom done offset n = (plain db).membersFrom done offset n := by
  induction n generalizing done offset with
  | zero => rfl
  | succ n ih =>
    have hmod : offset % UInt32.size = offset := Nat.mod_eq_of_lt (by omega)
    change (if db.wordAt (offset % UInt32.size) = 0 then done.reverse
      else (wrapped db).membersFrom
        (db.stringAt (db.wordAt (offset % UInt32.size) % UInt32.size) :: done) (offset + 4) n) =
      if db.wordAt offset = 0 then done.reverse
      else (plain db).membersFrom (db.stringAt (db.wordAt offset) :: done) (offset + 4) n
    rw [hmod]
    by_cases hzero : db.wordAt offset = 0
    · rw [if_pos hzero, if_pos hzero]
    · -- a word that is not zero stands in the data, so the next one starts in the data as well
      have hholds := Database.holds_wordAt hzero
      rw [if_neg hzero, if_neg hzero, ih _ hholds.add_le, Nat.mod_eq_of_lt hholds.1]

lemma guarded_finds (data : Array UInt8) (start stop : Nat) :
    (guarded data start stop).Finds data start stop where
  word hstart hstop h := (if_pos ⟨hstart, hstop⟩).trans (word?_eq_some_iff.mpr h)
  string h := string?_eq_some_iff.mpr h

namespace Finds

variable [LawfulMonad m] {a : Access m} {data : Array UInt8} {start stop : Nat}

lemma pair (h : a.Finds data start stop) {offset : Nat} {p : Bytes × Bytes}
    (hp : HoldsPair data offset p) (hstart : start ≤ offset)
    (hstop : offset + Layout.ruleSize ≤ stop) : a.pair offset = pure p := by
  obtain ⟨⟨first, hfirst, hfirst'⟩, second, hsecond, hsecond'⟩ := hp
  rw [Layout.ruleSize, Layout.stringReferenceSize] at hstop
  rw [Layout.stringReferenceSize] at hsecond
  rw [Access.pair, Layout.stringReferenceSize, h.word hstart (by omega) hfirst, pure_bind,
    h.string hfirst', pure_bind, h.word (by omega) (by omega) hsecond, pure_bind, h.string hsecond',
    pure_bind]

/-- The rules of a table are its entries before the first one with an empty pattern. -/
lemma rulesFrom (h : a.Finds data start stop) {t : Table} {pairs done : List (Bytes × Bytes)}
    (ht : t.Holds Layout.ruleSize (HoldsPair data) pairs) (hstart : start ≤ t.offset)
    (hstop : t.stop Layout.ruleSize ≤ stop) :
    a.rulesFrom done t.offset t.entries =
      pure (done.reverse ++ pairs.takeWhile (·.1 ≠ [])) := by
  induction pairs generalizing t done with
  | nil => rw [← ht.length, List.length_nil, Access.rulesFrom, List.takeWhile_nil, List.append_nil]
  | cons p pairs ih =>
    obtain ⟨hp, htail, hsame⟩ := ht.cons
    have hlt : t.offset + Layout.ruleSize ≤ stop := ht.add_le_stop.trans hstop
    rw [← ht.length, List.length_cons, Access.rulesFrom, h.pair hp hstart hlt, pure_bind]
    by_cases hempty : p.1 = []
    · simp [hempty]
    · rw [if_neg hempty, ih htail (by simp only; omega) (by rwa [hsame])]
      simp [hempty]

lemma rules (h : a.Finds data start stop) {g : NamedTable} {pairs : List (Bytes × Bytes)}
    (hg : g.table.Holds Layout.ruleSize (HoldsPair data) pairs) (hstart : start ≤ g.table.offset)
    (hstop : g.table.stop Layout.ruleSize ≤ stop) :
    a.rules g = pure (pairs.takeWhile (·.1 ≠ [])) :=
  h.rulesFrom hg hstart hstop

/-- The entries of a dictionary table are those that it holds, every one of them. -/
lemma entries (h : a.Finds data start stop) {t : Table} {pairs : List (Bytes × Bytes)}
    (ht : t.Holds Layout.dictionaryEntrySize (HoldsPair data) pairs) (hstart : start ≤ t.offset)
    (hstop : t.stop Layout.dictionaryEntrySize ≤ stop) : a.entries t = pure pairs := by
  have hpair : ∀ i ∈ List.range t.entries,
      a.pair (t.offset + i * Layout.dictionaryEntrySize) = pure (pairs.getD i ([], [])) := by
    intro i hi
    rw [List.mem_range] at hi
    have hlt : i < pairs.length := hi.trans_eq ht.length.symm
    rw [List.getD_eq_getElem _ _ hlt]
    exact h.pair (ht.entry i hlt) (by omega) ((Table.entry_le_stop hi).trans hstop)
  rw [Access.entries, mapM_eq_pure hpair, ← ht.length]
  congr 1
  exact List.ext_getElem (by simp) (by simp +contextual)

/-- The members of a class are the strings that its words refer to before the first zero word. If no
word is zero, the walk goes on behind the table. -/
lemma membersFrom (h : a.Finds data start stop) {t : Table} {words : List Nat}
    (done : List Bytes) {strings : List Bytes} {n : Nat}
    (ht : t.Holds Layout.classMemberSize (HoldsMember data) words)
    (hstrings : List.Forall₂ (HoldsString data) (words.takeWhile (· ≠ 0)) strings)
    (hstart : start ≤ t.offset) (hstop : t.stop Layout.classMemberSize ≤ stop)
    (hn : t.entries ≤ n) :
    a.membersFrom done t.offset n =
      if 0 ∈ words then pure (done.reverse ++ strings)
      else a.membersFrom (strings.reverse ++ done) (t.stop Layout.classMemberSize)
        (n - t.entries) := by
  induction words generalizing t done strings n with
  | nil =>
    obtain rfl := List.forall₂_nil_left_iff.mp hstrings
    simp [Table.stop, ← ht.length]
  | cons w words ih =>
    obtain ⟨⟨hw, -⟩, htail, hsame⟩ := ht.cons
    have hlt : t.offset + Layout.classMemberSize ≤ stop := ht.add_le_stop.trans hstop
    have hentries : t.entries = words.length + 1 := ht.length.symm
    obtain ⟨n, rfl⟩ : ∃ k, n = k + 1 := Nat.exists_eq_add_one.mpr (by omega)
    rw [Access.membersFrom, h.word hstart hlt hw, pure_bind]
    by_cases hzero : w = 0
    · subst hzero
      obtain rfl : strings = [] := by simpa using hstrings
      simp
    · rw [List.takeWhile_cons_of_pos (by simpa using hzero)] at hstrings
      obtain ⟨s, strings, hs, hrest, rfl⟩ := List.forall₂_cons_left_iff.mp hstrings
      have hcount : n + 1 - t.entries = n - words.length := by omega
      have hwalk := ih (s :: done) htail hrest (by simp only; omega) (by rwa [hsame])
        (show words.length ≤ n by omega)
      rw [if_neg hzero, h.string hs, pure_bind, hwalk, hsame, hcount]
      simp [Ne.symm hzero]

end Finds

end Access

namespace Section

variable {s : Section} {g : NamedTable} {t : Table}

lemma letterClass?_eq_some_iff : s.letterClass? = some g ↔ s = .letterClass g := by
  cases s <;> simp [letterClass?]

lemma letterRules?_eq_some_iff : s.letterRules? = some g ↔ s = .letterRules g := by
  cases s <;> simp [letterRules?]

lemma spellingRules?_eq_some_iff : s.spellingRules? = some g ↔ s = .spellingRules g := by
  cases s <;> simp [spellingRules?]

lemma dictionary?_eq_some_iff : s.dictionary? = some t ↔ s = .dictionary t := by
  cases s <;> simp [dictionary?]

end Section

namespace Database

variable {data : Array UInt8} {db : Database}

/-- The rules of a group are those of a table that stands in a section of a tag, and reading them goes
nowhere but to the entries of the table. -/
structure GivesRules (db : Database) (tag : SectionTag) (g : NamedTable) : Prop where
  stands : ∃ start, g.StandsAt db.data tag start
  inside : g.table.stop Layout.ruleSize ≤ db.data.size
  holds : ∃ pairs, g.table.Holds Layout.ruleSize (HoldsPair db.data) pairs ∧
    db.rules g = pairs.takeWhile (·.1 ≠ [])
  plain : (Access.plain db).rules g = db.rules g
  wrapped : (Access.wrapped db).rules g = db.rules g
  within : (Access.within db.data g.table Layout.ruleSize).rules g = some (db.rules g)

/-- The entries of a dictionary table are all those that stand in its section, and reading them goes
nowhere but to the entries of the table. -/
structure GivesEntries (db : Database) (t : Table) : Prop where
  stands : ∃ start, t.StandsAt db.data .dictionary start
  inside : t.stop Layout.dictionaryEntrySize ≤ db.data.size
  holds : t.Holds Layout.dictionaryEntrySize (HoldsPair db.data) (db.entries t)
  plain : (Access.plain db).entries t = db.entries t
  wrapped : (Access.wrapped db).entries t = db.entries t
  within : (Access.within db.data t Layout.dictionaryEntrySize).entries t = some (db.entries t)

/-- The rules of a group are what its table holds, up to the first empty pattern. -/
lemma rules_of_holds {g : NamedTable} {pairs : List (Bytes × Bytes)}
    (h : g.table.Holds Layout.ruleSize (HoldsPair db.data) pairs) :
    db.rules g = pairs.takeWhile (·.1 ≠ []) :=
  (Access.rules_plain db g).symm.trans ((Access.plain_finds db _ _).rules h le_rfl le_rfl)

/-- The entries of a dictionary table are what it holds. -/
lemma entries_of_holds {t : Table} {pairs : List (Bytes × Bytes)}
    (h : t.Holds Layout.dictionaryEntrySize (HoldsPair db.data) pairs) : db.entries t = pairs :=
  (Access.entries_plain db t).symm.trans ((Access.plain_finds db _ _).entries h le_rfl le_rfl)

lemma givesRules_of_stands {tag : SectionTag} {g : NamedTable} {start stop : Nat}
    (hsize : db.data.size < UInt32.size) (hstands : g.StandsAt db.data tag start)
    (hstop : stop = g.table.stop Layout.ruleSize) (hin : stop ≤ db.data.size)
    (hholds : ∃ pairs, g.table.Holds Layout.ruleSize (HoldsPair db.data) pairs) :
    db.GivesRules tag g := by
  obtain ⟨pairs, hpairs⟩ := hholds
  have hwrapped := (Access.wrapped_finds db hsize _ _).rules hpairs le_rfl le_rfl
  have hwithin := (Access.guarded_finds db.data _ _).rules hpairs le_rfl le_rfl
  have hrules := rules_of_holds hpairs
  refine ⟨⟨start, hstands⟩, hstop ▸ hin, ⟨pairs, hpairs, hrules⟩, Access.rules_plain db g, ?_, ?_⟩
  · rw [hrules]
    exact hwrapped
  · rw [hrules]
    exact hwithin

lemma givesEntries_of_stands {t : Table} {start stop : Nat} (hsize : db.data.size < UInt32.size)
    (hstands : t.StandsAt db.data .dictionary start)
    (hstop : stop = t.stop Layout.dictionaryEntrySize) (hin : stop ≤ db.data.size)
    (hholds : ∃ pairs, t.Holds Layout.dictionaryEntrySize (HoldsPair db.data) pairs) :
    db.GivesEntries t := by
  obtain ⟨pairs, hpairs⟩ := hholds
  have hwrapped := (Access.wrapped_finds db hsize _ _).entries hpairs le_rfl le_rfl
  have hwithin := (Access.guarded_finds db.data _ _).entries hpairs le_rfl le_rfl
  obtain rfl := entries_of_holds hpairs
  exact ⟨⟨start, hstands⟩, hstop ▸ hin, hpairs, Access.entries_plain db t, hwrapped, hwithin⟩

/-- What a section of a loaded database holds stands in its data. -/
lemma exists_stands_of_load {α : Type} (h : load data = .ok db) {a : α} {find : Section → Option α}
    {make : α → Section} (hfind : ∀ {s : Section} {a : α}, find s = some a ↔ s = make a)
    (ha : a ∈ db.sections.filterMap find) :
    ∃ start stop, stop ≤ db.data.size ∧ (make a).Stands db.data start stop := by
  obtain ⟨rfl, hlaid⟩ := laid_of_load h
  obtain ⟨s, hs, heq⟩ := List.mem_filterMap.mp ha
  obtain ⟨start, stop, -, hstop, hstands⟩ := hlaid.exists_of_mem hs
  rw [hfind.mp heq] at hstands
  exact ⟨start, stop, hstop, hstands⟩

/-- In a database that has been loaded the rules of every group, and the dictionary, are what the entries
of their tables hold. The tables stand in the sections of the data, and no word that is looked for on
the way, and no string, is missing or stands anywhere but in the entries that loading has checked. -/
theorem accessors_of_load (h : load data = .ok db) (hsize : data.size < UInt32.size) :
    db.data = data ∧ Laid data Layout.languageHeaderSize db.sections data.size ∧
      (∀ g ∈ db.letterGroups, db.GivesRules .letterToPhoneme g) ∧
      (∀ g ∈ db.spellingGroups, db.GivesRules .spelling g) ∧
      (∀ t ∈ db.dictionaries, db.GivesEntries t) ∧
      db.dictionary = (db.dictionaries.map db.entries).flatten := by
  obtain ⟨rfl, hlaid⟩ := laid_of_load h
  refine ⟨rfl, hlaid, fun g hg => ?_, fun g hg => ?_, fun t ht => ?_, rfl⟩
  · obtain ⟨start, stop, hin, hstands, hstop, hholds⟩ :=
      exists_stands_of_load h Section.letterRules?_eq_some_iff hg
    exact givesRules_of_stands hsize hstands hstop hin hholds
  · obtain ⟨start, stop, hin, hstands, hstop, hholds⟩ :=
      exists_stands_of_load h Section.spellingRules?_eq_some_iff hg
    exact givesRules_of_stands hsize hstands hstop hin hholds
  · obtain ⟨start, stop, hin, hstands, hstop, hholds⟩ :=
      exists_stands_of_load h Section.dictionary?_eq_some_iff ht
    exact givesEntries_of_stands hsize hstands hstop hin hholds

/-- A class with a zero word, a group with one rule, and a dictionary with one word. -/
def sampleData : Array UInt8 :=
  #[0x4C, 0x41, 0x4E, 0x47, 0x44, 0x42, 0x31, 0x30, 72, 0, 0, 0, 72, 0, 0, 0,
    0x43, 0x4C, 0x53, 2, 0, 0x41, 73, 0, 0, 0, 0, 0, 0, 0,
    0x4C, 0x32, 0x50, 2, 0, 0x61, 73, 0, 0, 0, 73, 0, 0, 0, 72, 0, 0, 0, 72, 0, 0, 0,
    0x44, 0x49, 0x43, 1, 0, 73, 0, 0, 0, 72, 0, 0, 0,
    0x53, 0x54, 0x52, 75, 0, 0, 0, 0, 0x61, 0]

def sampleDatabase : Database where
  data := sampleData
  locale := ""
  alphabet := ""
  sections := [.letterClass ⟨0x41, ⟨2, 22⟩⟩, .letterRules ⟨0x61, ⟨2, 36⟩⟩, .dictionary ⟨1, 57⟩, .strings]

lemma load_sampleData : load sampleData = .ok sampleDatabase := by
  have hheader : readHeader (Cursor.start sampleData) = (.ok ("", ""), ⟨sampleData, 16⟩) := by
    cbv
  have hclass : Walk.readSection readBody ⟨sampleData, 16⟩ =
      (.ok (.letterClass ⟨0x41, ⟨2, 22⟩⟩), ⟨sampleData, 30⟩) := by cbv
  have hrules : Walk.readSection readBody ⟨sampleData, 30⟩ =
      (.ok (.letterRules ⟨0x61, ⟨2, 36⟩⟩), ⟨sampleData, 52⟩) := by cbv
  have hdictionary : Walk.readSection readBody ⟨sampleData, 52⟩ =
      (.ok (.dictionary ⟨1, 57⟩), ⟨sampleData, 65⟩) := by cbv
  have hstrings : Walk.readSection readBody ⟨sampleData, 65⟩ =
      (.ok .strings, ⟨sampleData, 75⟩) := by cbv
  rw [load, hheader]
  simp only
  rw [Walk.sections_of_ok (by decide) hclass, Walk.sections_of_ok (by decide) hrules,
    Walk.sections_of_ok (by decide) hdictionary, Walk.sections_of_ok (by decide) hstrings,
    Walk.sections_of_end (by decide)]
  rfl

theorem accessors_of_load_sampleData : load sampleData = .ok sampleDatabase ∧
    sampleDatabase.GivesRules .letterToPhoneme ⟨0x61, ⟨2, 36⟩⟩ ∧
      sampleDatabase.rules ⟨0x61, ⟨2, 36⟩⟩ = [([0x61], [0x61])] ∧
      sampleDatabase.dictionary = [([0x61], [])] := by
  have h := accessors_of_load load_sampleData (by decide)
  exact ⟨load_sampleData, h.2.2.1 _ (by decide), by cbv, by cbv⟩

/-- What has been found before stands before what is found from an offset on. -/
lemma membersFrom_eq_append (db : Database) (done : List Bytes) (offset : Nat) :
    db.membersFrom done offset = done.reverse ++ db.membersFrom [] offset := by
  induction hn : db.data.size - offset using Nat.strong_induction_on generalizing done offset with
  | _ n ih =>
    subst hn
    rw [membersFrom, membersFrom.eq_def db []]
    by_cases hin : offset + 4 ≤ db.data.size
    · rw [if_pos hin, if_pos hin]
      by_cases hzero : db.wordAt offset = 0
      · simp [hzero]
      · have hless : db.data.size - (offset + 4) < db.data.size - offset := by omega
        simp only [if_neg hzero]
        rw [ih _ hless _ _ rfl, ih _ hless [_] _ rfl]
        simp
    · rw [if_neg hin, if_neg hin, List.reverse_nil, List.append_nil]

/-- The members of a class are the strings that the words of its table refer to, up to a zero word. If a
word is zero, reading the members goes nowhere but to the words of the table; if none is, the words that
stand behind the table are taken for members as well. -/
structure GivesMembers (db : Database) (c : NamedTable) (members : List Bytes) : Prop where
  stands : ∃ start, c.StandsAt db.data .classDef start
  inside : c.table.stop Layout.classMemberSize ≤ db.data.size
  plain : (Access.plain db).members db.data.size c = members
  wrapped : (Access.wrapped db).members db.data.size c = members
  holds : ∃ words strings, c.table.Holds Layout.classMemberSize (HoldsMember db.data) words ∧
    List.Forall₂ (HoldsString db.data) (words.takeWhile (· ≠ 0)) strings ∧
    ((Access.within db.data c.table Layout.classMemberSize).members db.data.size c = some members ↔
      0 ∈ words) ∧
    (0 ∈ words → members = strings ∧ members.length < c.table.entries) ∧
    (0 ∉ words → members = strings ++ db.membersFrom [] (c.table.stop Layout.classMemberSize))

/-- Behind every word of a class that is not zero there is a string. -/
lemma exists_strings {words : List Nat} {c : Table}
    (h : c.Holds Layout.classMemberSize (HoldsMember data) words) :
    ∃ strings, List.Forall₂ (HoldsString data) (words.takeWhile (· ≠ 0)) strings := by
  induction words generalizing c with
  | nil => exact ⟨[], .nil⟩
  | cons w words ih =>
    obtain ⟨⟨-, hw⟩, htail, -⟩ := h.cons
    rcases hw with rfl | ⟨s, hs⟩
    · exact ⟨[], by simp⟩
    · obtain ⟨strings, hstrings⟩ := ih htail
      by_cases hzero : w = 0
      · exact ⟨[], by simp [hzero]⟩
      · rw [List.takeWhile_cons_of_pos (by simpa using hzero)]
        exact ⟨s :: strings, .cons hs hstrings⟩

section Words

variable {words : List Nat} {strings : List Bytes} {c : NamedTable}

lemma membersFrom_of_holds
    (hwords : c.table.Holds Layout.classMemberSize (HoldsMember db.data) words)
    (hstrings : List.Forall₂ (HoldsString db.data) (words.takeWhile (· ≠ 0)) strings)
    (hroom : c.table.entries < db.data.size) :
    db.membersFrom [] c.table.offset = if 0 ∈ words then strings
      else strings ++ db.membersFrom [] (c.table.stop Layout.classMemberSize) := by
  rw [← Access.members_plain db c, Access.members, (Access.plain_finds db _ _).membersFrom []
    hwords hstrings le_rfl le_rfl hroom.le]
  refine if_congr Iff.rfl rfl ?_
  have hfar : db.data.size < c.table.stop Layout.classMemberSize +
      4 * (db.data.size - c.table.entries + 1) := by
    rw [Table.stop, Layout.classMemberSize, Layout.stringReferenceSize]
    omega
  rw [List.append_nil, Access.membersFrom_plain db hfar, membersFrom_eq_append, List.reverse_reverse]

/-- If no word is zero, the word behind the table is looked for, and that is out of bounds. -/
lemma members_within (hwords : c.table.Holds Layout.classMemberSize (HoldsMember data) words)
    (hstrings : List.Forall₂ (HoldsString data) (words.takeWhile (· ≠ 0)) strings) {n : Nat}
    (hroom : c.table.entries < n) :
    (Access.within data c.table Layout.classMemberSize).members n c =
      if 0 ∈ words then some strings else none := by
  have hnone : (Access.within data c.table Layout.classMemberSize).word
      (c.table.stop Layout.classMemberSize) = none := if_neg (by omega)
  obtain ⟨k, hk⟩ : ∃ k, n - c.table.entries = k + 1 := Nat.exists_eq_add_one.mpr (by omega)
  rw [Access.members, Access.within, (Access.guarded_finds data _ _).membersFrom [] hwords hstrings
    le_rfl le_rfl hroom.le, hk]
  refine if_congr Iff.rfl rfl ?_
  rw [Access.membersFrom]
  exact congrArg (· >>= _) hnone

/-- Fewer words than there are stand before a zero word. -/
lemma length_takeWhile_lt (hzero : 0 ∈ words) : (words.takeWhile (· ≠ 0)).length < words.length := by
  have hfront : words.takeWhile (· ≠ 0) <+: words := List.takeWhile_prefix _
  refine lt_of_le_of_ne hfront.length_le fun hlength => ?_
  have hall := List.takeWhile_eq_self_iff.mp (hfront.eq_of_length hlength) 0 hzero
  simp at hall

end Words

lemma givesMembers_of_stands {c : NamedTable} {start stop : Nat} (hsize : db.data.size < UInt32.size)
    (hstands : c.StandsAt db.data .classDef start)
    (hstop : stop = c.table.stop Layout.classMemberSize) (hin : stop ≤ db.data.size)
    (hholds : ∃ words, c.table.Holds Layout.classMemberSize (HoldsMember db.data) words) :
    db.GivesMembers c (db.membersFrom [] c.table.offset) := by
  obtain ⟨words, hwords⟩ := hholds
  obtain ⟨strings, hstrings⟩ := exists_strings hwords
  subst hstop
  have hroom := hstands.entries_lt_size hin
  have hplain := Access.members_plain db c
  have hwrapped := Access.membersFrom_wrapped db hsize [] (n := db.data.size)
    ((Table.offset_le_stop _ _).trans hin)
  have hmembers := membersFrom_of_holds hwords hstrings hroom
  have hwithin := members_within hwords hstrings hroom
  refine ⟨⟨start, hstands⟩, hin, hplain, hwrapped.trans hplain, words, strings, hwords, hstrings, ?_⟩
  by_cases hzero : 0 ∈ words
  · rw [if_pos hzero] at hmembers hwithin
    have hshort := length_takeWhile_lt hzero
    rw [hstrings.length_eq, hwords.length] at hshort
    rw [hmembers]
    exact ⟨iff_of_true hwithin hzero, fun _ => ⟨rfl, hshort⟩, fun hnot => absurd hzero hnot⟩
  · rw [if_neg hzero] at hmembers hwithin
    refine ⟨iff_of_false (fun hsome => ?_) hzero, fun hmem => absurd hmem hzero, fun _ => hmembers⟩
    cases hwithin.symm.trans hsome

/-- The members of a class in a database that has been loaded. -/
theorem members_of_load (h : load data = .ok db) (hsize : data.size < UInt32.size) (id : UInt8) :
    db.data = data ∧ (db.classTable? id = none → db.members id = []) ∧
      ∀ c, db.classTable? id = some c →
        c ∈ db.classTables ∧ c.id = id ∧ db.GivesMembers c (db.members id) := by
  obtain ⟨rfl, -⟩ := laid_of_load h
  refine ⟨rfl, fun hnone => by rw [members, hnone], fun c hc => ?_⟩
  have hlast := List.mem_filter.mp (List.mem_of_getLast? hc)
  obtain ⟨start, stop, hin, hstands, hstop, hholds⟩ :=
    exists_stands_of_load h Section.letterClass?_eq_some_iff hlast.1
  have hmembers : db.members id = db.membersFrom [] c.table.offset := by rw [members, hc]
  rw [hmembers]
  exact ⟨hlast.1, of_decide_eq_true hlast.2, givesMembers_of_stands hsize hstands hstop hin hholds⟩

theorem members_of_load_sampleData : load sampleData = .ok sampleDatabase ∧
    sampleDatabase.classTable? 0x41 = some ⟨0x41, ⟨2, 22⟩⟩ ∧
      sampleDatabase.GivesMembers ⟨0x41, ⟨2, 22⟩⟩ (sampleDatabase.members 0x41) ∧
      sampleDatabase.members 0x41 = [[0x61]] := by
  have htable : sampleDatabase.classTable? 0x41 = some ⟨0x41, ⟨2, 22⟩⟩ := by decide
  have h := members_of_load load_sampleData (by decide) 0x41
  exact ⟨load_sampleData, htable, (h.2.2 _ htable).2.2, by cbv⟩

/-- A class with one word that is not zero; behind it the strings follow. -/
def openClassData : Array UInt8 :=
  #[0x4C, 0x41, 0x4E, 0x47, 0x44, 0x42, 0x31, 0x30, 33, 0, 0, 0, 33, 0, 0, 0,
    0x43, 0x4C, 0x53, 1, 0, 0x41, 34, 0, 0, 0,
    0x53, 0x54, 0x52, 36, 0, 0, 0, 0, 0x61, 0]

def openClassDatabase : Database where
  data := openClassData
  locale := ""
  alphabet := ""
  sections := [.letterClass ⟨0x41, ⟨1, 22⟩⟩, .strings]

lemma load_openClassData : load openClassData = .ok openClassDatabase := by
  have hheader : readHeader (Cursor.start openClassData) = (.ok ("", ""), ⟨openClassData, 16⟩) := by
    cbv
  have hclass : Walk.readSection readBody ⟨openClassData, 16⟩ =
      (.ok (.letterClass ⟨0x41, ⟨1, 22⟩⟩), ⟨openClassData, 26⟩) := by cbv
  have hstrings : Walk.readSection readBody ⟨openClassData, 26⟩ =
      (.ok .strings, ⟨openClassData, 36⟩) := by cbv
  rw [load, hheader]
  simp only
  rw [Walk.sections_of_ok (by decide) hclass, Walk.sections_of_ok (by decide) hstrings,
    Walk.sections_of_end (by decide)]
  rfl

/-- A class without a zero word is accepted, and it gets a member more than it has words: the start of
the section behind it, which refers to no string and is taken for the empty one. -/
theorem members_openClassData : load openClassData = .ok openClassDatabase ∧
    openClassData.size < UInt32.size ∧
      openClassDatabase.classTable? 0x41 = some ⟨0x41, ⟨1, 22⟩⟩ ∧
      openClassDatabase.members 0x41 = [[0x61], []] ∧
      string? openClassData (openClassDatabase.wordAt 26) = none ∧
      (Access.within openClassData ⟨1, 22⟩ Layout.classMemberSize).members openClassData.size
        ⟨0x41, ⟨1, 22⟩⟩ = none :=
  ⟨load_openClassData, by decide, by decide, by cbv, by cbv, by cbv⟩

end Database

end LetterToSound.Language
