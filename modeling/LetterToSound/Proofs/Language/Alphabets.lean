import Mathlib
import LetterToSound.Proofs.Language.Invariant
import LetterToSound.Proofs.Language.Kept
import LetterToSound.Proofs.Pattern.Lookaheads
import LetterToSound.Proofs.Phoneme.ZeroBytes

/-!
# The alphabets that phonemes are written in

Replacements of letter rules and transcriptions of dictionaries are checked where they stand, against
the alphabet that has been chosen last before them, while a database names the one that is chosen last
in the whole source. If both are the same wherever phonemes stand, the database holds nothing that its
alphabet cannot read.
-/

namespace LetterToSound.Language

namespace Item

/-- Whether an item has text that is to be read as phonemes. -/
def HasPhonemes (i : Item) : Prop := i.letters ≠ [] ∨ i.entries ≠ []

instance (i : Item) : Decidable i.HasPhonemes :=
  inferInstanceAs (Decidable (i.letters ≠ [] ∨ i.entries ≠ []))

end Item

namespace Scope

/-- The alphabet in force behind items. -/
def alphabetAfter (is : List Item) : Option Alphabet := (is.foldl after empty).alphabet

/-- The alphabet in force behind items is the one that their definition names. -/
lemma alphabetAfter_eq (is : List Item) :
    alphabetAfter is = Alphabet.named? (Utf8.lossy (Definition.ofItems is).alphabet) := by
  induction is using List.reverseRecOn with
  | nil => decide +kernel
  | append_singleton is i ih =>
    have halphabets : (is ++ [i]).filterMap Item.alphabet? =
        is.filterMap Item.alphabet? ++ [i].filterMap Item.alphabet? := List.filterMap_append
    have hafter : alphabetAfter (is ++ [i]) = ((is.foldl after empty).after i).alphabet := by
      rw [alphabetAfter, List.foldl_append]
      rfl
    rw [hafter, Definition.ofItems, halphabets]
    cases i with
    | alphabet name =>
      have hlast : [Item.alphabet name].filterMap Item.alphabet? = [name] := rfl
      rw [hlast, List.getLastD_concat]
      rfl
    | conditional c =>
      rw [List.filterMap_cons_none rfl, List.filterMap_nil, List.append_nil, after]
      split <;> exact ih
    | _ =>
      rw [List.filterMap_cons_none rfl, List.filterMap_nil, List.append_nil]
      exact ih

end Scope

/-- Items whose phonemes all stand where the alphabet is in force that is so at the end. -/
def Settled (is : List Item) : Prop := ∀ n, (h : n < is.length) → is[n].HasPhonemes →
  Scope.alphabetAfter (is.take n) = Scope.alphabetAfter is

instance (is : List Item) : Decidable (Settled is) :=
  inferInstanceAs (Decidable (∀ n, (h : n < is.length) → is[n].HasPhonemes →
    Scope.alphabetAfter (is.take n) = Scope.alphabetAfter is))

namespace Definition

variable {texts : List Bytes} {source : Bytes} {is : List Item} {d : Definition} {a : Alphabet}

/-- An alphabet reads all phonemes of a definition. -/
structure Spelt (d : Definition) (a : Alphabet) : Prop where
  replacements : ∀ r ∈ d.letterRules, ∃ phonemes, a.parse r.replacement = .ok phonemes
  transcriptions : ∀ e ∈ d.dictionary, ∃ phonemes, a.parse e.phonemes = .ok phonemes

/-- An item with phonemes was let through in the alphabet that is in force at the end. -/
lemma exists_made_of_settled (h : Accepted texts Scope.empty is) (hsettled : Settled is) {i : Item}
    (hi : i ∈ is) (hphonemes : i.HasPhonemes) :
    ∃ scope : Scope, scope.alphabet = Scope.alphabetAfter is ∧ i.Made texts scope := by
  obtain ⟨before, after, rfl⟩ := List.append_of_mem hi
  have halphabet := hsettled before.length (by simp) (by simpa using hphonemes)
  rw [List.take_left] at halphabet
  exact ⟨_, halphabet, h.made_of_append.2⟩

/-- The alphabet that is in force at the end reads all phonemes of settled items. -/
lemma spelt_of_settled (h : Accepted texts Scope.empty is) (hsettled : Settled is)
    (ha : Scope.alphabetAfter is = some a) : (ofItems is).Spelt a := by
  constructor
  · intro r hr
    obtain ⟨i, hi, hri⟩ := List.mem_flatMap.mp hr
    obtain ⟨scope, hscope, hmade⟩ := exists_made_of_settled h hsettled hi
      (.inl (List.ne_nil_of_mem hri))
    cases i with
    | letterRules rules =>
      obtain ⟨a', ha', hparse⟩ := (hmade r hri).phonemes rfl
      rw [hscope, ha] at ha'
      cases ha'
      exact hparse
    | _ => cases hri
  · intro e he
    obtain ⟨i, hi, hei⟩ := List.mem_flatMap.mp he
    obtain ⟨scope, hscope, hmade⟩ := exists_made_of_settled h hsettled hi
      (.inr (List.ne_nil_of_mem hei))
    cases i with
    | dictionary entries => exact (hmade e hei).parses a (hscope.trans ha)
    | _ => cases hei

end Definition

namespace Database

variable {source : Bytes} {db : Database} {d : Definition} {a : Alphabet}

/-- A loaded rule is a rule of the definition, with its strings cut. -/
lemma Prefixes.exists_rule {tables : List NamedTable} {rules : List Rule}
    (h : db.Prefixes tables (rules.map Rule.cut)) {t : NamedTable} (ht : t ∈ tables)
    {rule : Bytes × Bytes} (hrule : rule ∈ db.rules t) :
    ∃ r ∈ rules, rule = (Bytes.cut r.pattern, Bytes.cut r.replacement) := by
  rw [h.rules t ht] at hrule
  obtain ⟨q, hq, rfl⟩ := List.mem_map.mp ((List.takeWhile_sublist _).subset hrule)
  obtain ⟨r, hr, rfl⟩ := List.mem_map.mp (List.mem_of_mem_filter hq)
  exact ⟨r, hr, rfl⟩

/-- Text that an alphabet reads is not cut. -/
lemma exists_parse_cut {text : Bytes} (h : ∃ phonemes, a.parse text = .ok phonemes) :
    ∃ phonemes, a.parse (Bytes.cut text) = .ok phonemes := by
  obtain ⟨phonemes, hparse⟩ := h
  rw [Bytes.cut_of_not_mem (Alphabet.zero_not_mem_of_parse hparse)]
  exact ⟨phonemes, hparse⟩

/-- What is read in a definition is read in its database. -/
lemma Keeps.exists_parse (hdb : db.Keeps d.cut) (hspelt : d.Spelt a) :
    (∀ t ∈ db.letterGroups, ∀ rule ∈ db.rules t, ∃ phonemes, a.parse rule.2 = .ok phonemes) ∧
      ∀ entry ∈ db.dictionary, ∃ phonemes, a.parse entry.2 = .ok phonemes := by
  constructor
  · intro t ht rule hrule
    obtain ⟨r, hr, rfl⟩ := hdb.letterGroups.exists_rule ht hrule
    exact exists_parse_cut (hspelt.replacements r hr)
  · intro entry hentry
    rw [hdb.dictionary] at hentry
    obtain ⟨e', he', rfl⟩ := List.mem_map.mp hentry
    obtain ⟨e, he, rfl⟩ := List.mem_map.mp he'
    exact exists_parse_cut (hspelt.transcriptions e he)

/-- Every list that a loaded pattern asks for is a list of features. -/
lemma Keeps.exists_spec (hdb : db.Keeps d.cut) (hparse : parse source = .ok d) {t : NamedTable}
    (ht : t ∈ db.letterGroups) {rule : Bytes × Bytes} (hrule : rule ∈ db.rules t) :
    ∀ list ∈ StoredPattern.asked rule.1, ∃ spec, FeatureSpec.parse list = .ok spec := by
  obtain ⟨r, hr, rfl⟩ := hdb.letterGroups.exists_rule ht hrule
  obtain ⟨scope, -, hmade⟩ := Definition.exists_made_of_parse hparse .letter r hr
  obtain ⟨text, -, guard, -, hstored⟩ := hmade.pattern
  intro list hlist
  have hprefix : Bytes.cut r.pattern <+: r.pattern := List.takeWhile_prefix _
  exact StoredPattern.exists_spec_of_ofSource hstored list
    ((StoredPattern.asked_prefix hprefix).subset hlist)

/-- The alphabet of a database is the one of the source. -/
lemma Keeps.named?_alphabet (hdb : db.Keeps d.cut) (hparse : parse source = .ok d) :
    Alphabet.named? db.alphabet = Alphabet.named? (Utf8.lossy d.alphabet) := by
  have halphabet : Bytes.ofString db.alphabet = d.alphabet :=
    hdb.alphabet.trans (Definition.isText_alphabet_of_parse hparse).2
  obtain ⟨s, hs, heq⟩ := List.mem_map.mp (Definition.alphabet_of_parse hparse)
  have hlossy : ∀ s ∈ ["", "features", "xsampa", "x-sampa"], Utf8.lossy (Bytes.ofString s) = s := by
    decide +kernel
  have hsame := congrArg Bytes.toString? (halphabet.trans heq.symm)
  rw [Bytes.toString?_ofString, Bytes.toString?_ofString] at hsame
  rw [Option.some.inj hsame, ← heq, hlossy s hs]

end Database

end LetterToSound.Language
