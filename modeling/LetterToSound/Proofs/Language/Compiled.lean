import Mathlib
import LetterToSound.Compile
import LetterToSound.Proofs.Language.Accepted
import LetterToSound.Proofs.Language.Reload
import LetterToSound.Proofs.Pattern.Grammar
import LetterToSound.Proofs.Source.Loop

/-!
# Databases of compiled sources

A source without zero bytes that is accepted gives a definition that can be kept: its strings come
from its tokens, the ids of its conditionals are between 1 and 254, its classes are different and no
pattern is empty. So if the database that it is compiled to can be loaded at all, it says what the
definition says.
-/

namespace LetterToSound.Language

namespace Scope

variable {texts : List Bytes} {scope : Scope}

/-- A scope whose conditionals have ids. -/
def Numbered (scope : Scope) : Prop := scope.names.length ≤ maxId

lemma numbered_empty : empty.Numbered := Nat.zero_le _

lemma ofNat_succ_ne {n : Nat} (h : n < maxId) :
    UInt8.ofNat (n + 1) ≠ 0 ∧ UInt8.ofNat (n + 1) ≠ 255 := by
  have hlt : n + 1 < 255 := Nat.succ_lt_succ h
  have htoNat : (UInt8.ofNat (n + 1)).toNat = n + 1 :=
    UInt8.toNat_ofNat_of_lt' (hlt.trans (by decide))
  constructor
  · intro heq
    rw [heq] at htoNat
    exact absurd htoNat (Nat.succ_ne_zero n).symm
  · intro heq
    rw [heq] at htoNat
    have hvalue : (255 : UInt8).toNat = 255 := rfl
    omega

/-- The ids of a scope are between 1 and 254. -/
lemma id?_ne {name : Bytes} {id : UInt8} (hscope : scope.Numbered) (h : scope.id? name = some id) :
    id ≠ 0 ∧ id ≠ 255 := by
  obtain ⟨i, hi, rfl⟩ := Option.map_eq_some_iff.mp h
  have hlt : i < scope.names.length := by
    rw [List.idxOf?_eq_some_iff] at hi
    exact hi.1
  exact ofNat_succ_ne (hlt.trans_le hscope)

lemma idFor?_ne {name : Bytes} {id : UInt8} (hscope : scope.Numbered)
    (h : scope.idFor? name = some id) : id ≠ 0 ∧ id ≠ 255 := by
  unfold idFor? at h
  split at h
  · rename_i hid
    cases h
    exact id?_ne hscope hid
  · split at h
    · rename_i hlt
      cases h
      exact ofNat_succ_ne hlt
    · cases h

/-- A new name gets an id only while there are any left. -/
lemma numbered_after {i : Item} (hscope : scope.Numbered) (hi : i.Made texts scope) :
    (scope.after i).Numbered := by
  cases i with
  | conditional c =>
    rw [after]
    split
    · exact hscope
    · rename_i hnew
      have hid := Conditional.Made.id hi
      have hnone : scope.id? c.name = none := by
        rw [id?, List.idxOf?_eq_none_iff.mpr (by simpa using hnew)]
        rfl
      rw [idFor?, hnone] at hid
      dsimp only at hid
      split at hid
      · rename_i hlt
        simp only [Numbered, List.length_append, List.length_singleton]
        exact hlt
      · cases hid
  | _ => exact hscope

end Scope

namespace Accepted

variable {texts : List Bytes} {scope : Scope} {is : List Item}

/-- What scopes keep from one item to the next holds of the scope of every accepted item. -/
lemma exists_scope {P : Scope → Prop} (hstep : ∀ scope i, P scope → i.Made texts scope →
    P (scope.after i)) (h : Accepted texts scope is) (hscope : P scope) :
    ∀ i ∈ is, ∃ scope', P scope' ∧ i.Made texts scope' := by
  induction h with
  | nil scope => simp
  | cons hi hrest ih =>
    refine List.forall_mem_cons.mpr ⟨⟨_, hscope, hi⟩, ih (hstep _ _ hscope hi)⟩

/-- Classes are different from those before them. -/
lemma nodup_classes (h : Accepted texts scope is) (hscope : scope.classes.Nodup) :
    (scope.classes ++ (is.filterMap Item.letterClass?).map LetterClass.id).Nodup := by
  induction h with
  | nil scope => simpa using hscope
  | @cons scope i rest hi hrest ih =>
    cases i with
    | letterClass c =>
      have hnodup : (scope.classes ++ [c.id]).Nodup :=
        List.nodup_append.mpr ⟨hscope, List.nodup_singleton _, by
          intro a ha b hb hab
          rw [List.mem_singleton.mp hb] at hab
          exact LetterClass.Made.new hi (hab ▸ ha)⟩
      have hmore := ih hnodup
      simpa [Scope.after, Item.letterClass?] using hmore
    | conditional c =>
      have hmore := ih (by
        rw [Scope.after]
        split <;> exact hscope)
      rw [List.filterMap_cons_none rfl]
      refine Eq.mp ?_ hmore
      rw [Scope.after]
      split <;> rfl
    | _ => exact ih hscope

end Accepted

section Zero

variable {texts : List Bytes} {scope : Scope}

lemma zero_not_mem_of_suffix {s : Bytes} (htexts : ∀ t ∈ texts, 0 ∉ t)
    (h : ∃ t ∈ texts, s <:+ t) : 0 ∉ s := by
  obtain ⟨t, ht, hsuffix⟩ := h
  exact fun hzero => htexts t ht (hsuffix.subset hzero)

/-- The guard of a rule is written without zero bytes. -/
lemma zero_not_mem_guard {g : Guard} (h : g.id ≠ 0) : 0 ∉ g.bytes := by
  obtain ⟨polarity, id⟩ := g
  cases polarity <;> simp [Guard.bytes, Polarity.byte, Ne.symm h]

/-- A rule of a source without zero bytes has none either. -/
lemma Rule.Made.zero_not_mem {kind : RuleKind} {r : Rule} (htexts : ∀ t ∈ texts, 0 ∉ t)
    (hscope : scope.Numbered) (hr : r.Made texts scope kind) :
    0 ∉ r.pattern ∧ 0 ∉ r.replacement := by
  refine ⟨fun hzero => ?_, htexts _ hr.replacement⟩
  obtain ⟨source, hsource, guard, hguard, hstored⟩ := hr.pattern
  obtain ⟨-, hbytes, -⟩ := StoredPattern.ofSource_ok hstored
  dsimp only at hbytes
  rw [hbytes] at hzero
  rcases StoredPattern.mem_of_mem_encode hzero with ⟨g, hg, hzero⟩ | hzero | hzero | hzero
  · obtain ⟨name, hname⟩ := hguard g hg
    exact zero_not_mem_guard (Scope.id?_ne hscope hname).1 hzero
  · exact htexts source hsource hzero
  · exact absurd hzero (by decide)
  · exact absurd hzero (by decide)

lemma Rule.Made.pattern_ne_nil {kind : RuleKind} {r : Rule} (hr : r.Made texts scope kind) :
    r.pattern ≠ [] := by
  obtain ⟨source, -, guard, -, hstored⟩ := hr.pattern
  obtain ⟨-, hbytes, -, rest, hanchor⟩ := StoredPattern.ofSource_ok hstored
  dsimp only at hbytes
  rw [hbytes, StoredPattern.encode, hanchor]
  simp

end Zero

namespace Definition

variable {source : Bytes} {d : Definition}

/-- The rules of a definition, each with the kind of block that it stands in. -/
def kindRules (d : Definition) : RuleKind → List Rule
  | .spelling => d.spellingRules
  | .letter => d.letterRules

/-- An accepted source is what its accepted items define together. -/
lemma exists_items_of_parse (h : parse source = .ok d) :
    ∃ is, d = ofItems is ∧ Accepted ((Source.tokens source).map Token.text) Scope.empty is := by
  unfold parse at h
  cases his : items source with
  | error e =>
    rw [his] at h
    cases h
  | ok is =>
    rw [his] at h
    cases h
    exact ⟨is, rfl, accepted_of_items his⟩

lemma parse_of_items {is : List Item} (h : items source = .ok is) :
    parse source = .ok (ofItems is) := by
  rw [parse, h]
  rfl

/-- Every rule of an accepted source was made in a scope whose conditionals have ids. -/
lemma exists_made_of_parse (h : parse source = .ok d) (kind : RuleKind) :
    ∀ r ∈ d.kindRules kind, ∃ scope : Scope, scope.Numbered ∧
      r.Made ((Source.tokens source).map Token.text) scope kind := by
  obtain ⟨is, rfl, haccepted⟩ := exists_items_of_parse h
  have hall := haccepted.exists_scope (fun _ _ hscope hi => Scope.numbered_after hscope hi)
    Scope.numbered_empty
  intro r hr
  cases kind with
  | spelling =>
    obtain ⟨i, hi, hr⟩ := List.mem_flatMap.mp hr
    obtain ⟨scope, hscope, hmade⟩ := hall i hi
    cases i with
    | spellingRules rules => exact ⟨scope, hscope, hmade r hr⟩
    | _ => cases hr
  | letter =>
    obtain ⟨i, hi, hr⟩ := List.mem_flatMap.mp hr
    obtain ⟨scope, hscope, hmade⟩ := hall i hi
    cases i with
    | letterRules rules => exact ⟨scope, hscope, hmade r hr⟩
    | _ => cases hr

section Members

variable {is : List Item}

lemma mem_of_mem_conditionals {c : Conditional} (h : c ∈ (ofItems is).conditionals) :
    Item.conditional c ∈ is := by
  obtain ⟨i, hi, hc⟩ := List.mem_filterMap.mp h
  cases i <;> cases hc
  exact hi

lemma mem_of_mem_classes {c : LetterClass} (h : c ∈ (ofItems is).classes) :
    Item.letterClass c ∈ is := by
  obtain ⟨i, hi, hc⟩ := List.mem_filterMap.mp h
  cases i <;> cases hc
  exact hi

lemma exists_mem_of_mem_dictionary {e : Entry} (h : e ∈ (ofItems is).dictionary) :
    ∃ entries, Item.dictionary entries ∈ is ∧ e ∈ entries := by
  obtain ⟨i, hi, he⟩ := List.mem_flatMap.mp h
  cases i with
  | dictionary entries => exact ⟨entries, hi, he⟩
  | _ => cases he

lemma locale_eq_or_mem (is : List Item) :
    (ofItems is).locale = [] ∨ Item.locale (ofItems is).locale ∈ is := by
  have hmem : (ofItems is).locale ∈ [] :: is.filterMap Item.locale? := List.getLastD_mem_cons
  refine (List.mem_cons.mp hmem).imp_right fun h => ?_
  obtain ⟨i, hi, hvalue⟩ := List.mem_filterMap.mp h
  cases i <;> cases hvalue
  exact hi

lemma alphabet_eq_or_mem (is : List Item) :
    (ofItems is).alphabet = [] ∨ Item.alphabet (ofItems is).alphabet ∈ is := by
  have hmem : (ofItems is).alphabet ∈ [] :: is.filterMap Item.alphabet? := List.getLastD_mem_cons
  refine (List.mem_cons.mp hmem).imp_right fun h => ?_
  obtain ⟨i, hi, hvalue⟩ := List.mem_filterMap.mp h
  cases i <;> cases hvalue
  exact hi

end Members

/-- Conditionals of an accepted source have ids that a database may hold. -/
lemma ids_of_parse (h : parse source = .ok d) : ∀ c ∈ d.conditionals, c.id ≠ 0 ∧ c.id ≠ 255 := by
  obtain ⟨is, rfl, haccepted⟩ := exists_items_of_parse h
  have hall := haccepted.exists_scope (fun _ _ hscope hi => Scope.numbered_after hscope hi)
    Scope.numbered_empty
  intro c hc
  obtain ⟨scope, hscope, hmade⟩ := hall _ (mem_of_mem_conditionals hc)
  exact Scope.idFor?_ne hscope (Conditional.Made.id hmade)

/-- Classes of an accepted source are different. -/
lemma classes_of_parse (h : parse source = .ok d) : (d.classes.map LetterClass.id).Nodup := by
  obtain ⟨is, rfl, haccepted⟩ := exists_items_of_parse h
  exact haccepted.nodup_classes List.nodup_nil

/-- Rules of an accepted source have been made in a scope whose conditionals have ids. -/
lemma exists_made_of_mem_rules (h : parse source = .ok d) :
    ∀ r ∈ d.spellingRules ++ d.letterRules, ∃ kind, ∃ scope : Scope, scope.Numbered ∧
      r.Made ((Source.tokens source).map Token.text) scope kind := by
  intro r hr
  rcases List.mem_append.mp hr with hr | hr
  · exact ⟨.spelling, exists_made_of_parse h .spelling r hr⟩
  · exact ⟨.letter, exists_made_of_parse h .letter r hr⟩

/-- The definition of an accepted source without zero bytes can be kept. -/
theorem storable_of_parse (hzero : 0 ∉ source) (h : parse source = .ok d) : d.Storable := by
  have htexts : ∀ t ∈ (Source.tokens source).map Token.text, 0 ∉ t := by
    intro t ht hmem
    obtain ⟨u, hu, rfl⟩ := List.mem_map.mp ht
    exact hzero (Source.mem_of_mem_tokens hu hmem)
  have hrules := exists_made_of_mem_rules h
  have hids := ids_of_parse h
  have hclasses := classes_of_parse h
  obtain ⟨is, rfl, haccepted⟩ := exists_items_of_parse h
  have hall := haccepted.exists_scope (fun _ _ hscope hi => Scope.numbered_after hscope hi)
    Scope.numbered_empty
  refine ⟨fun s hs => ?_, hids, hclasses, fun r hr => ?_⟩
  · simp only [strings, List.mem_cons, List.mem_append, List.mem_map, List.mem_flatMap,
      List.not_mem_nil, or_false] at hs
    rcases hs with rfl | rfl | ((⟨c, hc, rfl⟩ | ⟨c, hc, hs⟩) | ⟨r, hr, hs⟩) | ⟨e, he, hs⟩
    · rcases locale_eq_or_mem is with hnil | hmem
      · simp [hnil]
      · obtain ⟨scope, -, hmade⟩ := hall _ hmem
        exact htexts _ hmade
    · rcases alphabet_eq_or_mem is with hnil | hmem
      · simp [hnil]
      · obtain ⟨scope, -, hmade⟩ := hall _ hmem
        exact htexts _ hmade.1
    · obtain ⟨scope, -, hmade⟩ := hall _ (mem_of_mem_conditionals hc)
      exact zero_not_mem_of_suffix htexts (Conditional.Made.locale hmade)
    · obtain ⟨scope, -, hmade⟩ := hall _ (mem_of_mem_classes hc)
      exact htexts s (LetterClass.Made.members hmade s hs).1
    · obtain ⟨kind, scope, hscope, hmade⟩ := hrules r (List.mem_append.mpr hr)
      obtain ⟨hpattern, hreplacement⟩ := hmade.zero_not_mem htexts hscope
      rcases hs with rfl | rfl
      · exact hpattern
      · exact hreplacement
    · obtain ⟨entries, hmem, he⟩ := exists_mem_of_mem_dictionary he
      obtain ⟨scope, -, hmade⟩ := hall _ hmem
      rcases hs with rfl | rfl
      · exact htexts _ (hmade e he).word
      · exact htexts _ (hmade e he).phonemes
  · obtain ⟨kind, scope, hscope, hmade⟩ := hrules r hr
    exact hmade.pattern_ne_nil

/-- A compiled source has been accepted, and its definition has been written. -/
lemma exists_of_compile {data : Array UInt8} (h : compile source = .ok data) :
    ∃ d, parse source = .ok d ∧ d.write none = (.ok (), data) := by
  obtain ⟨d, hparse, h⟩ := Outcome.exists_of_bind_eq_ok h
  exact ⟨d, hparse, database_eq_ok_iff.mp h⟩

/-- A source is compiled to what its definition is written as. -/
lemma compile_of_write {data : Array UInt8} (hparse : parse source = .ok d)
    (hwrite : d.write none = (.ok (), data)) : compile source = .ok data := by
  unfold write at hwrite
  simp [compile, hparse, database, hwrite, bind, Except.bind]

/-- The database that a source without zero bytes is compiled to says what its definition says, if it
can be loaded. -/
theorem represents_of_compile {data : Array UInt8} {db : Database} (hzero : 0 ∉ source)
    (hparse : parse source = .ok d) (hcompile : compile source = .ok data)
    (hload : Database.load data = .ok db) : db.Represents d := by
  obtain ⟨d', hparse', hwrite⟩ := exists_of_compile hcompile
  obtain rfl : d = d' := Except.ok.inj (hparse.symm.trans hparse')
  obtain ⟨hexists, hreadable⟩ := load_of_write (storable_of_parse hzero hparse) hwrite
  obtain ⟨db', hload', hrepresents⟩ := hexists (hreadable db hload)
  obtain rfl : db = db' := Except.ok.inj (hload.symm.trans hload')
  exact hrepresents

end Definition

section Sample

/-- A source with an alphabet, a conditional, a class and rules of both kinds. -/
def sampleSource : Bytes := Bytes.ofString <|
  ".phonemeset\txsampa\nset @u if locale=en\nclassdef V a e end\n" ++
  "rewrite\nV)y\t@u\t\"i\"\nend\nrules\na({vcd})\t/a/\na(V)\t/e/\t@u\nb\t/b/\nend\n"

def sampleDefinition : Definition where
  locale := []
  alphabet := Bytes.ofString "xsampa"
  conditionals := [⟨Bytes.ofString "u", 1, .set, Bytes.ofString "en"⟩]
  classes := [⟨0x56, [Bytes.ofString "a", Bytes.ofString "e"]⟩]
  spellingRules := [⟨0x79, [0x40, 0x01, 0x79, 0x29, 0x56], Bytes.ofString "i"⟩]
  letterRules := [⟨0x61, Bytes.ofString "a({vcd})", Bytes.ofString "a"⟩,
    ⟨0x61, [0x40, 0x01, 0x61, 0x28, 0x56, 0x29], Bytes.ofString "e"⟩,
    ⟨0x62, Bytes.ofString "b", Bytes.ofString "b"⟩]
  dictionary := []

lemma parse_sampleSource : parse sampleSource = .ok sampleDefinition := by decide +kernel

/-- The sample is compiled to a database that is loaded. -/
lemma exists_load_of_sampleSource : ∃ data db, compile sampleSource = .ok data ∧
    Database.load data = .ok db ∧ db.alphabet = "xsampa" := by
  have htext : ∀ s : String, Definition.IsText (Bytes.ofString s) :=
    fun s => ⟨s, Bytes.toString?_ofString s⟩
  have hreadable : sampleDefinition.Readable := by
    refine ⟨htext "", htext "xsampa", fun c hc => ?_⟩
    rw [List.mem_singleton.mp hc]
    exact htext "en"
  obtain ⟨data, hwrite⟩ := Definition.exists_write (d := sampleDefinition) (by decide +kernel)
    (by decide +kernel) (by decide +kernel)
  have hstorable := Definition.storable_of_parse (by decide +kernel) parse_sampleSource
  obtain ⟨db, hload, hdb⟩ := (Definition.load_of_write hstorable hwrite).1 hreadable
  refine ⟨data, db, Definition.compile_of_write parse_sampleSource hwrite, hload, ?_⟩
  have halphabet := congrArg Bytes.toString? hdb.alphabet
  rw [Bytes.toString?_ofString, sampleDefinition, Bytes.toString?_ofString] at halphabet
  exact Option.some.inj halphabet

end Sample

end LetterToSound.Language
