import Mathlib
import LetterToSound.Proofs.Language.Alphabets
import LetterToSound.Proofs.Matching.Coverage

/-!
# Pronouncing reads phoneme text

The lists of features that patterns ask for can always be read, so whatever text cannot be read when a
word is pronounced is the replacement of a rule. If the phonemes of a source all stand where the
alphabet is in force that the database names, then all replacements can be read and no text is
pronounced with invalid phonemes. Otherwise a rule may have been accepted in one alphabet and be read in
another one.
-/

namespace LetterToSound.Matching

open LetterToSound.Language

namespace Pronouncer

variable {m : Pronouncer} {cause : PhonemeError} {p : Place}

/-- A rule has a replacement that cannot be read. -/
def Illegible (m : Pronouncer) (cause : PhonemeError) : Prop :=
  ∃ b, ∃ rule ∈ m.rules.get b, m.alphabet.parse rule.2 = .error cause

/-- A pronouncer that only asks for lists of features, and tries no other rules in a lookahead. -/
structure Asks (m : Pronouncer) : Prop where
  lists : ∀ b, ∀ rule ∈ m.rules.get b, ∀ list ∈ StoredPattern.asked rule.1,
    ∃ spec, FeatureSpec.parse list = .ok spec
  sounding : ∀ b, ∀ rule ∈ m.sounding.get b, rule ∈ m.rules.get b

lemma illegible_of_parse {b : UInt8} {rule : Bytes × Bytes} (hrule : rule ∈ m.rules.get b)
    (h : m.parse rule.2 = .error (.invalidPhonemes cause)) : m.Illegible cause := by
  unfold parse at h
  split at h
  · cases h
  · rename_i hparse
    cases h
    exact ⟨b, rule, hrule, hparse⟩

/-- What has been found at a place is a rule of the table. -/
lemma exists_mem_of_find {ε : Type} {rules : RuleTable} {s : Setting} {ask : Option (Lookahead ε)}
    {found : Match} (h : rules.find s ask p = .ok (some found)) :
    ∃ b, ∃ rule ∈ rules.get b, rule.2 = found.replacement := by
  unfold RuleTable.find at h
  split at h
  · cases h
  · rename_i b rest hahead
    obtain ⟨rule, hrule, -, hreplacement⟩ := exists_mem_of_firstMatch h
    exact ⟨b, rule, hrule, hreplacement⟩

lemma exists_mem_of_soundingMatch (hm : m.Asks) {found : Match}
    (h : m.soundingMatch p = some found) :
    ∃ b, ∃ rule ∈ m.rules.get b, rule.2 = found.replacement := by
  unfold soundingMatch at h
  split at h
  rename_i hfind
  subst h
  obtain ⟨b, rule, hrule, hreplacement⟩ := exists_mem_of_find hfind
  exact ⟨b, rule, hm.sounding b rule hrule, hreplacement⟩

lemma illegible_of_firstPhoneme (hm : m.Asks)
    (h : m.firstPhoneme p = .error (.invalidPhonemes cause)) : m.Illegible cause := by
  fun_induction firstPhoneme m p with
  | case3 p hp found hfound e hparse =>
    cases h
    obtain ⟨b, rule, hrule, hreplacement⟩ := exists_mem_of_soundingMatch hm hfound
    exact illegible_of_parse hrule (hreplacement ▸ hparse)
  | case6 p hp found hfound hparse hlength ih => exact ih h
  | _ => cases h

lemma illegible_of_lookahead (hm : m.Asks) {ahead list : Bytes} {spec : FeatureSpec}
    (hlist : FeatureSpec.parse list = .ok spec)
    (h : m.lookahead ahead list = .error (.invalidPhonemes cause)) : m.Illegible cause := by
  rw [lookahead, hlist] at h
  cases hfirst : m.firstPhoneme (Place.start ahead) with
  | error e =>
    rw [hfirst] at h
    cases h
    exact illegible_of_firstPhoneme hm hfirst
  | ok first =>
    rw [hfirst] at h
    cases h

lemma exists_fit_of_firstMatch_error {ε : Type} {s : Setting} {ask : Option (Lookahead ε)}
    {rules : List (Bytes × Bytes)} {e : ε} (h : firstMatch s ask p rules = .error e) :
    ∃ rule ∈ rules, fit s ask p rule.1 = .error e := by
  fun_induction firstMatch s ask p rules with
  | case1 => cases h
  | case2 pattern replacement rules e' hfit =>
    cases h
    exact ⟨_, List.mem_cons_self, hfit⟩
  | case3 => cases h
  | case4 pattern replacement rules hfit ih =>
    obtain ⟨rule, hrule, hfound⟩ := ih h
    exact ⟨rule, List.mem_cons_of_mem _ hrule, hfound⟩

lemma illegible_of_find (hm : m.Asks)
    (h : m.rules.find m.setting (some m.lookahead) p = .error (.invalidPhonemes cause)) :
    m.Illegible cause := by
  unfold RuleTable.find at h
  split at h
  · cases h
  · rename_i b rest hahead
    obtain ⟨rule, hrule, hfit⟩ := exists_fit_of_firstMatch_error h
    obtain ⟨ahead, list, hlist, hask⟩ := exists_ask_of_fit_error hfit
    obtain ⟨spec, hspec⟩ := hm.lists b rule hrule list hlist
    exact illegible_of_lookahead hm hspec hask

lemma illegible_of_next (hm : m.Asks) (h : m.next p = .error (.invalidPhonemes cause)) :
    m.Illegible cause := by
  unfold next at h
  split at h
  · cases h
  split at h
  · rename_i hfind
    cases h
    exact illegible_of_find hm hfind
  · cases h
  · rename_i found hfind
    obtain ⟨b, rule, hrule, hreplacement⟩ := exists_mem_of_find hfind
    cases hparse : m.parse found.replacement with
    | error e =>
      rw [hparse] at h
      cases h
      exact illegible_of_parse hrule (hreplacement ▸ hparse)
    | ok phonemes =>
      rw [hparse] at h
      cases h

/-- Phoneme text that cannot be read while pronouncing is the replacement of a rule. -/
theorem illegible_of_pronounceFrom (hm : m.Asks) {done : List Phoneme}
    (h : m.pronounceFrom done p = .error (.invalidPhonemes cause)) : m.Illegible cause := by
  fun_induction pronounceFrom m done p with
  | case2 done p hp e hnext =>
    cases h
    exact illegible_of_next hm hnext
  | case5 done p hp step hnext hlength ih => exact ih h
  | _ => cases h

end Pronouncer

section Compiled

variable {source : Bytes} {is : List Item} {d : Definition} {data : Array UInt8} {db : Database}
  {locale : String} {m : Pronouncer} {a : Alphabet}

/-- The rules of a table of groups are those of the groups. -/
lemma exists_group_of_mem {tables : List NamedTable} {b : UInt8} {rule : Bytes × Bytes}
    (h : rule ∈ (RuleTable.ofGroups db tables).get b) : ∃ t ∈ tables, rule ∈ db.rules t := by
  rw [RuleTable.ofGroups, ByteTable.get_ofFn] at h
  split at h
  · rename_i t hfind
    exact ⟨t, List.mem_of_find?_eq_some hfind, h⟩
  · cases h

lemma Pronouncer.named?_of_ofDatabase (hm : Pronouncer.ofDatabase db locale = .ok m) :
    Alphabet.named? db.alphabet = some m.alphabet := by
  unfold ofDatabase at hm
  split at hm
  · cases hm
  · rename_i halphabet
    cases hm
    exact halphabet

/-- A pronouncer of a database only asks for lists of features. -/
lemma asks_of_keeps (hdb : db.Keeps d.cut) (hparse : Language.parse source = .ok d)
    (hm : Pronouncer.ofDatabase db locale = .ok m) : m.Asks := by
  obtain ⟨-, hrules, hsounding⟩ := Pronouncer.ofDatabase_ok hm
  constructor
  · intro b rule hrule
    rw [hrules] at hrule
    obtain ⟨t, ht, hrule⟩ := exists_group_of_mem hrule
    exact hdb.exists_spec hparse ht hrule
  · intro b rule hrule
    rw [hsounding, ByteTable.get_ofFn] at hrule
    exact List.mem_of_mem_filter hrule

/-- What cannot be read when a text is pronounced is the replacement of a loaded rule, and there is no
such replacement, nor such a transcription, if all phonemes of the source stand where the alphabet is
in force that is named by the database. Every list that a pattern asks for can be read in any case. -/
theorem pronounce_of_compile (hitems : Language.items source = .ok is)
    (hcompile : Language.compile source = .ok data) (hload : Database.load data = .ok db)
    (hm : Pronouncer.ofDatabase db locale = .ok m) :
    Alphabet.named? db.alphabet = some m.alphabet ∧
    (∀ t ∈ db.letterGroups, ∀ rule ∈ db.rules t, ∀ list ∈ StoredPattern.asked rule.1,
      ∃ spec, FeatureSpec.parse list = .ok spec) ∧
    (∀ text cause, m.pronounce text = .error (.invalidPhonemes cause) →
      ∃ t ∈ db.letterGroups, ∃ rule ∈ db.rules t, m.alphabet.parse rule.2 = .error cause) ∧
    (Settled is →
      (∀ t ∈ db.letterGroups, ∀ rule ∈ db.rules t,
        ∃ phonemes, m.alphabet.parse rule.2 = .ok phonemes) ∧
      (∀ entry ∈ db.dictionary, ∃ phonemes, m.alphabet.parse entry.2 = .ok phonemes) ∧
      ∀ text cause, m.pronounce text ≠ .error (.invalidPhonemes cause)) := by
  have hparse := Definition.parse_of_items hitems
  have hdb := Definition.keeps_of_load hparse hcompile hload
  have halphabet := Pronouncer.named?_of_ofDatabase hm
  have hblame : ∀ text cause, m.pronounce text = .error (.invalidPhonemes cause) →
      ∃ t ∈ db.letterGroups, ∃ rule ∈ db.rules t, m.alphabet.parse rule.2 = .error cause := by
    intro text cause h
    obtain ⟨b, rule, hrule, hillegible⟩ :=
      Pronouncer.illegible_of_pronounceFrom (asks_of_keeps hdb hparse hm) h
    rw [(Pronouncer.ofDatabase_ok hm).2.1] at hrule
    obtain ⟨t, ht, hrule⟩ := exists_group_of_mem hrule
    exact ⟨t, ht, rule, hrule, hillegible⟩
  refine ⟨halphabet, fun t ht rule hrule => hdb.exists_spec hparse ht hrule, hblame,
    fun hsettled => ?_⟩
  have hforce : Scope.alphabetAfter is = some m.alphabet := by
    rw [Scope.alphabetAfter_eq, ← hdb.named?_alphabet hparse, halphabet]
  obtain ⟨hreplacements, htranscriptions⟩ :=
    hdb.exists_parse (Definition.spelt_of_settled (accepted_of_items hitems) hsettled hforce)
  refine ⟨hreplacements, htranscriptions, fun text cause h => ?_⟩
  obtain ⟨t, ht, rule, hrule, hillegible⟩ := hblame text cause h
  obtain ⟨phonemes, hok⟩ := hreplacements t ht rule hrule
  rw [hok] at hillegible
  cases hillegible

/-- A database can be pronounced with if its locales are texts and its alphabet is given. -/
lemma exists_pronouncer_of_write (hparse : Language.parse source = .ok d)
    (hwrite : d.write none = (.ok (), data)) (hreadable : d.cut.Readable)
    (ha : Alphabet.named? (Utf8.lossy d.alphabet) = some a) (locale : String) :
    ∃ db m, Language.compile source = .ok data ∧ Database.load data = .ok db ∧
      Pronouncer.ofDatabase db locale = .ok m ∧ m.alphabet = a := by
  obtain ⟨db, hload, hdb⟩ := (Definition.keeps_of_write (Definition.ids_of_parse hparse)
    (Definition.classes_of_parse hparse) hwrite).1 hreadable
  have halphabet := (hdb.named?_alphabet hparse).trans ha
  obtain ⟨m, hm⟩ : ∃ m, Pronouncer.ofDatabase db locale = .ok m := by
    rw [Pronouncer.ofDatabase, halphabet]
    exact ⟨_, rfl⟩
  refine ⟨db, m, Definition.compile_of_write hparse hwrite, hload, hm, ?_⟩
  have hsame := (Pronouncer.named?_of_ofDatabase hm).symm.trans halphabet
  exact Option.some.inj hsame

/-- A source that chooses alphabets before and behind its phonemes, the last two of them the same. -/
def settledSource : Bytes := Bytes.ofString <|
  ".phonemeset\tfeatures\n.phonemeset\tx-sampa\nrules\na(\x7bvcd\x7d)\t/A/\nb\t/b/\nend\n" ++
  "dictionary cainteoir\nab\t/Ab/\nend\n.phonemeset\txsampa\n"

def settledItems : List Item :=
  [.alphabet (Bytes.ofString "features"), .alphabet (Bytes.ofString "x-sampa"),
    .letterRules [⟨0x61, Bytes.ofString "a(\x7bvcd\x7d)", Bytes.ofString "A"⟩,
      ⟨0x62, Bytes.ofString "b", Bytes.ofString "b"⟩],
    .dictionary [⟨Bytes.ofString "ab", Bytes.ofString "Ab"⟩], .alphabet (Bytes.ofString "xsampa")]

lemma items_settledSource : Language.items settledSource = .ok settledItems := by decide +kernel

theorem pronounce_of_compile_sample : ∃ data db m, Language.compile settledSource = .ok data ∧
    Database.load data = .ok db ∧ Pronouncer.ofDatabase db "en" = .ok m ∧ Settled settledItems ∧
    ∀ text cause, m.pronounce text ≠ .error (.invalidPhonemes cause) := by
  have hparse := Definition.parse_of_items items_settledSource
  obtain ⟨data, hwrite⟩ := Definition.exists_write (d := Definition.ofItems settledItems)
    (by decide +kernel) (by decide +kernel) (by decide +kernel)
  have hreadable : (Definition.ofItems settledItems).cut.Readable :=
    ⟨⟨"", by decide⟩, ⟨"xsampa", by decide +kernel⟩, fun c hc => by cases hc⟩
  obtain ⟨db, m, hcompile, hload, hm, -⟩ := exists_pronouncer_of_write hparse hwrite hreadable
    (show _ = some Alphabet.xsampa by decide +kernel) "en"
  have hsettled : Settled settledItems := by decide +kernel
  exact ⟨data, db, m, hcompile, hload, hm, hsettled,
    ((pronounce_of_compile items_settledSource hcompile hload hm).2.2.2 hsettled).2.2⟩

/-- A source that chooses another alphabet behind its rules. -/
def reselectedSource : Bytes := Bytes.ofString
  ".phonemeset\txsampa\nrules\na\t/a/\nend\n.phonemeset\tfeatures\n"

def reselectedDefinition : Definition where
  locale := []
  alphabet := Bytes.ofString "features"
  conditionals := []
  classes := []
  spellingRules := []
  letterRules := [⟨0x61, [0x61], [0x61]⟩]
  dictionary := []

lemma parse_reselectedSource : Language.parse reselectedSource = .ok reselectedDefinition := by
  decide +kernel

/-- A pattern of one literal byte fits where the byte is. -/
lemma fit_literal {ε : Type} {s : Setting} {ask : Option (Lookahead ε)} {p : Place} {b : UInt8}
    (hb : SourcePattern.startsAnchor b = true) (hp : p.ahead.head? = some b) :
    fit s ask p [b] = .ok (some 1) := by
  have hguard := StoredPattern.ofByte?_of_startsAnchor hb
  have hliteral := isLiteral_of_startsAnchor hb
  have hadmits : s.admits [b] = true := by simp [Setting.admits, hguard]
  have hbody : StoredPattern.body [b] = [b] := by simp [StoredPattern.body, hguard]
  rw [fit, if_pos hadmits, hbody, readPattern_byte (Pattern.Item.isLiteral_ne hliteral),
    members_literal hliteral, Cursors.read, Cursors.start]
  dsimp only
  rw [firstMember_literal, if_pos hp]
  dsimp only [Option.map_some]
  rw [readPattern]

/-- A replacement that was accepted in an alphabet need not be read in the one that is chosen later. -/
theorem pronounce_reselected : ∃ data db m, Language.compile reselectedSource = .ok data ∧
    Database.load data = .ok db ∧ Pronouncer.ofDatabase db "" = .ok m ∧
    m.pronounce [0x61] = .error (.invalidPhonemes (.unknownSymbol 0)) := by
  obtain ⟨data, hwrite⟩ := Definition.exists_write (d := reselectedDefinition)
    (by decide +kernel) (by decide +kernel) (by decide +kernel)
  have hreadable : reselectedDefinition.cut.Readable :=
    ⟨⟨"", by decide⟩, ⟨"features", by decide +kernel⟩, fun c hc => by cases hc⟩
  obtain ⟨db, m, hcompile, hload, hm, halphabet⟩ := exists_pronouncer_of_write
    parse_reselectedSource hwrite hreadable (show _ = some Alphabet.features by decide +kernel) ""
  have hdb := Definition.represents_of_compile (by decide +kernel) parse_reselectedSource hcompile hload
  refine ⟨data, db, m, hcompile, hload, hm, ?_⟩
  have hfind : m.rules.find m.setting (some m.lookahead) (Place.start [0x61]) =
      .ok (some ⟨1, [0x61]⟩) := by
    rw [(Pronouncer.ofDatabase_ok hm).2.1, find_ofGroups hdb.letterGroups
      (grouped_of_parse parse_reselectedSource .letter) (p := Place.start [0x61]) rfl]
    have hfit : fit m.setting (some m.lookahead) (Place.start [0x61]) [0x61] = .ok (some 1) :=
      fit_literal (by decide) rfl
    simp [reselectedDefinition, Rule.stored, firstMatch, hfit]
  have hparse : m.parse [0x61] = .error (.invalidPhonemes (.unknownSymbol 0)) := by
    rw [Pronouncer.parse, halphabet]
    have hfeatures : Alphabet.features.parse [0x61] = .error (.unknownSymbol 0) := by decide +kernel
    rw [hfeatures]
  have hnext : m.next (Place.start [0x61]) = .error (.invalidPhonemes (.unknownSymbol 0)) := by
    rw [Pronouncer.next, if_neg (by simp [Place.start]), hfind]
    dsimp only
    rw [hparse]
    rfl
  rw [Pronouncer.pronounce, Pronouncer.pronounceFrom, dif_neg (by simp [Place.start])]
  split <;> simp_all

end Compiled

end LetterToSound.Matching
