import Mathlib
import LetterToSound.Proofs.Language.Compiled
import LetterToSound.Proofs.Text.Lossy

/-!
# What is kept of compiled sources

A source may hold any bytes but those that end its tokens. Zero bytes are stored like all others, and
a locale is stored whether it is a text or not, so what a source defines need not come back: a string
comes back as far as its first zero byte, and a database whose locales are no texts cannot be loaded.
The name of an alphabet always comes back, since only names that are known are accepted.
-/

namespace LetterToSound.Language

/-- Bytes that name an alphabet are its name. -/
lemma mem_of_isSome_named? {b : Bytes} (h : (Alphabet.named? (Utf8.lossy b)).isSome) :
    b ∈ ["features", "xsampa", "x-sampa"].map Bytes.ofString := by
  have hname : ∀ s ∈ ["features", "xsampa", "x-sampa"], Utf8.lossy b = s →
      b ∈ ["features", "xsampa", "x-sampa"].map Bytes.ofString := by
    intro s hs hlossy
    have hascii : ∀ s ∈ ["features", "xsampa", "x-sampa"],
        ∀ c ∈ s.toList, 0 < c.toNat ∧ c.toNat < 128 := by simp
    rw [Utf8.eq_of_lossy_eq (hascii s hs) hlossy]
    exact List.mem_map_of_mem hs
  unfold Alphabet.named? at h
  split_ifs at h with hfeatures hxsampa
  · exact hname _ (by simp) hfeatures
  · rcases hxsampa with hxsampa | hxsampa
    · exact hname _ (by simp) hxsampa
    · exact hname _ (by simp) hxsampa
  · cases h

namespace Definition

variable {source : Bytes} {d : Definition} {data : Array UInt8}

/-- The alphabet of an accepted source is the name of one, or not given. -/
lemma alphabet_of_parse (h : parse source = .ok d) :
    d.alphabet ∈ ["", "features", "xsampa", "x-sampa"].map Bytes.ofString := by
  obtain ⟨is, rfl, haccepted⟩ := exists_items_of_parse h
  rcases alphabet_eq_or_mem is with hnil | hmem
  · rw [hnil]
    exact List.mem_cons_self
  · obtain ⟨scope, -, hmade⟩ := haccepted.exists_scope (fun _ _ hscope hi =>
      Scope.numbered_after hscope hi) Scope.numbered_empty _ hmem
    exact List.mem_cons_of_mem _ (mem_of_isSome_named? hmade.2)

/-- The alphabet of an accepted source is a text that nothing is cut off from. -/
lemma isText_alphabet_of_parse (h : parse source = .ok d) :
    IsText d.alphabet ∧ Bytes.cut d.alphabet = d.alphabet := by
  obtain ⟨s, hs, halphabet⟩ := List.mem_map.mp (alphabet_of_parse h)
  rw [← halphabet]
  refine ⟨⟨s, Bytes.toString?_ofString s⟩, Bytes.cut_of_not_mem ?_⟩
  have hzero : ∀ s ∈ ["", "features", "xsampa", "x-sampa"], 0 ∉ Bytes.ofString s := by decide
  exact hzero s hs

/-- Something is left of every pattern that does not start with a zero byte. -/
lemma cut_pattern_ne_nil (h : parse source = .ok d) {r : Rule}
    (hr : r ∈ d.spellingRules ++ d.letterRules) (hgroup : r.group ≠ 0) : r.cut.pattern ≠ [] := by
  obtain ⟨kind, scope, -, hmade⟩ := exists_made_of_mem_rules h r hr
  obtain ⟨source, -, guard, -, hstored⟩ := hmade.pattern
  obtain ⟨hcheck, hbytes, -⟩ := StoredPattern.ofSource_ok hstored
  obtain ⟨rest, hencode, -⟩ := StoredPattern.exists_eq_encode hcheck
  have hpattern : r.pattern = guard.elim [] Guard.bytes ++ r.group :: rest := hbytes.trans hencode
  rw [Rule.cut, hpattern]
  cases guard with
  | none => simp [Bytes.cut, hgroup]
  | some g => cases hp : g.polarity <;> simp [Bytes.cut, Guard.bytes, Polarity.byte, hp]

/-- What is loaded of an accepted source is what it defines, as far as that is kept. -/
lemma keeps_of_load {db : Database} (hparse : parse source = .ok d)
    (hcompile : compile source = .ok data) (hload : Database.load data = .ok db) :
    db.Keeps d.cut := by
  obtain ⟨d', hparse', hwrite⟩ := exists_of_compile hcompile
  obtain rfl : d = d' := Except.ok.inj (hparse.symm.trans hparse')
  obtain ⟨hok, hreadable⟩ := keeps_of_write (ids_of_parse hparse) (classes_of_parse hparse) hwrite
  obtain ⟨db', hload', hkeeps⟩ := hok (hreadable db hload)
  obtain rfl : db = db' := Except.ok.inj (hload.symm.trans hload')
  exact hkeeps

/-- The database of an accepted source can be loaded if its locales are texts as far as their first
zero bytes, and only then. Loaded, it says what the definition says with every string cut at its
first zero byte; the alphabet is never cut, only rules of the group of the zero byte may be left out,
and of a source without zero bytes nothing is lost. -/
theorem keeps_of_compile (hparse : parse source = .ok d) (hcompile : compile source = .ok data) :
    ((∃ db, Database.load data = .ok db) ↔
        IsText (Bytes.cut d.locale) ∧ ∀ c ∈ d.conditionals, IsText (Bytes.cut c.locale)) ∧
      ∀ db, Database.load data = .ok db →
        db.Keeps d.cut ∧ Bytes.ofString db.alphabet = d.alphabet ∧
        (∀ r ∈ d.spellingRules ++ d.letterRules, r.group ≠ 0 → r.cut.pattern ≠ []) ∧
        (0 ∉ source → db.Represents d) := by
  obtain ⟨d', hparse', hwrite⟩ := exists_of_compile hcompile
  obtain rfl : d = d' := Except.ok.inj (hparse.symm.trans hparse')
  obtain ⟨hok, hreadable⟩ := keeps_of_write (ids_of_parse hparse) (classes_of_parse hparse) hwrite
  obtain ⟨htext, hcut⟩ := isText_alphabet_of_parse hparse
  constructor
  · constructor
    · rintro ⟨db, hload⟩
      have hd := hreadable db hload
      exact ⟨hd.locale, fun c hc => hd.conditionals c.cut (List.mem_map_of_mem hc)⟩
    · rintro ⟨hlocale, hconditionals⟩
      have halphabet : IsText d.cut.alphabet := by rwa [cut, hcut]
      have hd : d.cut.Readable := ⟨hlocale, halphabet, List.forall_mem_map.mpr hconditionals⟩
      obtain ⟨db, hload, -⟩ := hok hd
      exact ⟨db, hload⟩
  · intro db hload
    have hkeeps := keeps_of_load hparse hcompile hload
    exact ⟨hkeeps, hkeeps.alphabet.trans hcut, fun r hr => cut_pattern_ne_nil hparse hr,
      fun hzero => represents_of_compile hzero hparse hcompile hload⟩

/-- A rule that is guarded and matches a zero byte. -/
def zeroSource : Bytes :=
  Bytes.ofString "set @u if locale=en\nrewrite\n" ++ 0 :: Bytes.ofString "\t@u\t\"x\"\nend\n"

def zeroDefinition : Definition where
  locale := []
  alphabet := []
  conditionals := [⟨Bytes.ofString "u", 1, .set, Bytes.ofString "en"⟩]
  classes := []
  spellingRules := [⟨0, [0x40, 1, 0], Bytes.ofString "x"⟩]
  letterRules := []
  dictionary := []

lemma parse_zeroSource : parse zeroSource = .ok zeroDefinition := by decide +kernel

lemma exists_compile_zeroSource : ∃ data, compile zeroSource = .ok data ∧
    zeroDefinition.write none = (.ok (), data) := by
  obtain ⟨data, hwrite⟩ : ∃ data, zeroDefinition.write none = (.ok (), data) :=
    exists_write (by decide +kernel) (by decide +kernel) (by decide +kernel)
  exact ⟨data, compile_of_write parse_zeroSource hwrite, hwrite⟩

lemma readable_zeroDefinition : zeroDefinition.cut.Readable where
  locale := ⟨"", by decide⟩
  alphabet := ⟨"", by decide⟩
  conditionals c hc := ⟨"en", by
    rw [List.mem_singleton.mp hc]
    exact Bytes.toString?_ofString "en"⟩

theorem keeps_of_compile_sample : ∃ data db, parse zeroSource = .ok zeroDefinition ∧
    compile zeroSource = .ok data ∧ Database.load data = .ok db ∧ db.Keeps zeroDefinition.cut := by
  obtain ⟨data, hcompile, -⟩ := exists_compile_zeroSource
  obtain ⟨hload, hkeeps⟩ := keeps_of_compile parse_zeroSource hcompile
  have hlocales : ∀ c ∈ zeroDefinition.conditionals, IsText (Bytes.cut c.locale) := fun c hc =>
    readable_zeroDefinition.conditionals c.cut (List.mem_map_of_mem hc)
  obtain ⟨db, hdb⟩ := hload.mpr ⟨readable_zeroDefinition.locale, hlocales⟩
  exact ⟨data, db, parse_zeroSource, hcompile, hdb, (hkeeps db hdb).1⟩

/-- A source whose locale is no text. -/
def invalidSource : Bytes := Bytes.ofString ".locale\t" ++ 255 :: Bytes.ofString "\n"

def invalidDefinition : Definition := ⟨[255], [], [], [], [], [], []⟩

lemma parse_invalidSource : parse invalidSource = .ok invalidDefinition := by decide +kernel

/-- Accepted sources need not come back. The guarded pattern comes back as a guard with nothing behind
it, and the locale that is no text makes a database that cannot be loaded. -/
theorem not_reloaded_as_parsed :
    (∃ data db t, parse zeroSource = .ok zeroDefinition ∧ compile zeroSource = .ok data ∧
      Database.load data = .ok db ∧ t ∈ db.spellingGroups ∧
      zeroDefinition.spellingRules.map Rule.stored = [([0x40, 1, 0], Bytes.ofString "x")] ∧
      db.rules t = [([0x40, 1], Bytes.ofString "x")]) ∧
    ∃ data, compile invalidSource = .ok data ∧ ∀ db, Database.load data ≠ .ok db := by
  constructor
  · obtain ⟨data, hcompile, hwrite⟩ := exists_compile_zeroSource
    obtain ⟨db, hload, hkeeps⟩ :=
      (keeps_of_write (by decide) (by decide) hwrite).1 readable_zeroDefinition
    have hgroup : (0 : UInt8) ∈ db.spellingGroups.map NamedTable.id :=
      (hkeeps.spellingGroups.ids 0).mpr (by decide)
    obtain ⟨t, ht, hid⟩ := List.mem_map.mp hgroup
    refine ⟨data, db, t, parse_zeroSource, hcompile, hload, ht, rfl, ?_⟩
    rw [hkeeps.spellingGroups.rules t ht, hid]
    decide
  · obtain ⟨data, hwrite⟩ : ∃ data, invalidDefinition.write none = (.ok (), data) :=
      exists_write (by decide +kernel) (by decide +kernel) (by decide +kernel)
    refine ⟨data, compile_of_write parse_invalidSource hwrite, fun db hload => ?_⟩
    obtain ⟨s, hs⟩ := ((keeps_of_write (by decide) (by decide) hwrite).2 db hload).locale
    have hnone : Bytes.toString? (Bytes.cut invalidDefinition.locale) = none := by decide +kernel
    rw [Definition.cut, hnone] at hs
    cases hs

end Definition

end LetterToSound.Language
