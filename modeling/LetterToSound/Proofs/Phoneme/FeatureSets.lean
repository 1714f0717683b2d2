import Mathlib
import LetterToSound.Proofs.Phoneme.FeatureText

/-!
# Lists of features are sets

A list of features can be read when each name in it is that of a feature and no two of them give
different values to a family. What it then asks for is all of them together, so their order and a name
that is said again make no difference: families share no bits, and in its family a feature is alone.
-/

namespace LetterToSound

/-- The bits that any of some words has. -/
def allBits (words : List UInt64) : UInt64 := words.foldr (· ||| ·) 0

section Bits

variable {word : UInt64} {words words' : List UInt64}

lemma allBits_cons (word : UInt64) (words : List UInt64) :
    allBits (word :: words) = word ||| allBits words := rfl

lemma allBits_concat (words : List UInt64) (word : UInt64) :
    allBits (words ++ [word]) = allBits words ||| word := by
  induction words with
  | nil => simp [allBits]
  | cons other words ih => rw [List.cons_append, allBits_cons, allBits_cons, ih, UInt64.or_assoc]

lemma or_allBits_of_mem (h : word ∈ words) : word ||| allBits words = allBits words := by
  induction words with
  | nil => cases h
  | cons other words ih =>
    rw [allBits_cons]
    rcases List.mem_cons.mp h with rfl | h
    · rw [← UInt64.or_assoc, UInt64.or_self]
    · rw [← UInt64.or_assoc, UInt64.or_comm word, UInt64.or_assoc, ih h]

lemma allBits_or_of_subset (h : words ⊆ words') :
    allBits words ||| allBits words' = allBits words' := by
  induction words with
  | nil => exact UInt64.zero_or
  | cons word words ih =>
    obtain ⟨hword, hwords⟩ := List.cons_subset.mp h
    rw [allBits_cons, UInt64.or_assoc, ih hwords, or_allBits_of_mem hword]

/-- Only which words there are matters to their bits. -/
lemma allBits_congr (h : words ⊆ words') (h' : words' ⊆ words) : allBits words = allBits words' := by
  rw [← allBits_or_of_subset h', UInt64.or_comm, allBits_or_of_subset h]

lemma Phoneme.get_allBits (p : Phoneme) (words : List UInt64) :
    p.get (allBits words) = allBits (words.map p.get) := by
  induction words with
  | nil => exact UInt64.and_zero
  | cons word words ih => rw [allBits_cons, get_or, ih, List.map_cons, allBits_cons]

lemma Family.union_eq (families : List Family) : union families = allBits (families.map mask) := by
  rw [union, allBits, List.foldr_map]

end Bits

namespace FeatureSpec

/-- Whether no two features give different values to a family. -/
def Agreeing (fs : List Feature) : Prop :=
  ∀ f ∈ fs, ∀ g ∈ fs, f.family = g.family → f.value = g.value

/-- Asks for features. -/
def asking (fs : List Feature) : FeatureSpec :=
  ⟨allBits (fs.map Feature.value), allBits (fs.map (·.family.mask))⟩

section Asking

variable {f g : Feature} {fs fs' : List Feature} {names : List String} {quoted : String}
  {spec : FeatureSpec}

lemma asking_concat (fs : List Feature) (f : Feature) : asking (fs ++ [f]) = (asking fs).insert f := by
  simp [asking, insert, allBits_concat]

lemma asking_congr (h : ∀ f, f ∈ fs ↔ f ∈ fs') : asking fs = asking fs' := by
  have hsubset : fs ⊆ fs' := fun f => (h f).mp
  have hsubset' : fs' ⊆ fs := fun f => (h f).mpr
  rw [asking, asking, allBits_congr (List.map_subset _ hsubset) (List.map_subset _ hsubset'),
    allBits_congr (List.map_subset _ hsubset) (List.map_subset _ hsubset')]

/-- Families are asked about in which there is a feature, and no others. -/
lemma mask_asking (fs : List Feature) (family : Family) : (asking fs).mask &&& family.mask =
    if family ∈ fs.map Feature.family then family.mask else 0 := by
  rw [← Family.union_and_mask, Family.union_eq, List.map_map]
  rfl

/-- In a family the value is that of the features there, where these have one value. -/
lemma value_asking (htable : ∀ g ∈ fs, g ∈ Feature.table)
    (hagree : ∀ g ∈ fs, g.family = f.family → g.value = f.value) (hf : f ∈ Feature.table) :
    (asking fs).value &&& f.family.mask =
      if f.family ∈ fs.map Feature.family then f.value else 0 := by
  induction fs with
  | nil => exact UInt64.zero_and
  | cons g fs ih =>
    obtain ⟨hg, htable⟩ := List.forall_mem_cons.mp htable
    obtain ⟨hvalue, hagree⟩ := List.forall_mem_cons.mp hagree
    have hrest := ih htable hagree
    simp only [asking, List.map_cons, allBits_cons, or_and_distrib] at hrest ⊢
    rw [hrest]
    by_cases hfamily : g.family = f.family
    · have hmem : f.family ∈ g.family :: fs.map Feature.family := hfamily ▸ List.mem_cons_self
      rw [hvalue hfamily, Feature.value_and_mask hf, if_pos hmem]
      split
      · exact UInt64.or_self
      · exact UInt64.or_zero
    · rw [Feature.value_and_mask_of_ne hg hfamily, UInt64.zero_or]
      simp [Ne.symm hfamily]

lemma value_asking_of_mem (htable : ∀ g ∈ fs, g ∈ Feature.table) (hagree : Agreeing fs) (hf : f ∈ fs) :
    (asking fs).value &&& f.family.mask = f.value := by
  rw [value_asking htable (fun g hg => hagree g hg f hf) (htable f hf),
    if_pos (List.mem_map_of_mem hf)]

/-- A feature can be added where the features that are there have no other value in its family. -/
lemma conflicts_asking_eq_false_iff (htable : ∀ g ∈ fs, g ∈ Feature.table) (hagree : Agreeing fs)
    (hf : f ∈ Feature.table) :
    (asking fs).conflicts f = false ↔ ∀ g ∈ fs, g.family = f.family → g.value = f.value := by
  rw [conflicts_eq_false_iff, mask_asking]
  constructor
  · rintro h g hg hfamily
    have hmem : f.family ∈ fs.map Feature.family := hfamily ▸ List.mem_map_of_mem hg
    have hvalue := value_asking_of_mem htable hagree hg
    rw [if_pos hmem] at h
    rw [hfamily] at hvalue
    rcases h with hzero | h
    · exact absurd hzero (by cases f.family <;> decide)
    · exact hvalue.symm.trans h
  · intro h
    rw [value_asking htable h hf]
    by_cases hmem : f.family ∈ fs.map Feature.family
    · exact .inr (if_pos hmem)
    · exact .inl (if_neg hmem)

lemma agreeing_concat_iff : Agreeing (fs ++ [f]) ↔
    Agreeing fs ∧ ∀ g ∈ fs, g.family = f.family → g.value = f.value := by
  simp only [Agreeing, List.forall_mem_append, List.forall_mem_singleton]
  constructor
  · rintro ⟨h, -⟩
    exact ⟨fun g hg => (h g hg).1, fun g hg => (h g hg).2⟩
  · rintro ⟨h, hf⟩
    refine ⟨fun g hg => ⟨h g hg, hf g hg⟩, fun g hg hfamily => ?_, fun _ => trivial⟩
    exact (hf g hg hfamily.symm).symm

/-- Names are read as the features that they are the names of, if these agree. -/
lemma foldlM_empty_eq_ok_iff : names.foldlM (addName quoted) empty = .ok spec ↔
    ∃ fs : List Feature, fs.map Feature.name = names ∧ (∀ f ∈ fs, f ∈ Feature.table) ∧
      Agreeing fs ∧ spec = asking fs := by
  induction names using List.reverseRecOn generalizing spec with
  | nil =>
    constructor
    · intro h
      cases h
      exact ⟨[], rfl, List.forall_mem_nil _, List.forall_mem_nil _, rfl⟩
    · rintro ⟨fs, hnames, -, -, rfl⟩
      rw [List.map_eq_nil_iff.mp hnames]
      rfl
  | append_singleton names name ih =>
    rw [List.foldlM_append]
    constructor
    · intro h
      obtain ⟨before, hbefore, h⟩ := Outcome.exists_of_bind_eq_ok h
      obtain ⟨fs, rfl, htable, hagree, rfl⟩ := ih.mp hbefore
      obtain ⟨_, hadd, hdone⟩ := Outcome.exists_of_bind_eq_ok h
      cases hdone
      obtain ⟨f, hf, rfl, hconflicts, rfl⟩ := addName_ok hadd
      have hvalue := (conflicts_asking_eq_false_iff htable hagree hf).mp hconflicts
      exact ⟨fs ++ [f], by simp, List.forall_mem_append.mpr ⟨htable, by simpa using hf⟩,
        agreeing_concat_iff.mpr ⟨hagree, hvalue⟩, (asking_concat fs f).symm⟩
    · rintro ⟨all, hnames, htable, hagree, rfl⟩
      obtain ⟨fs, last, rfl, hfs, hlast⟩ := List.map_eq_append_iff.mp hnames
      obtain ⟨f, rfl, rfl⟩ := List.map_eq_singleton_iff.mp hlast
      obtain ⟨htable, hf⟩ := List.forall_mem_append.mp htable
      have hmem := hf f (List.mem_singleton_self f)
      obtain ⟨hagree, hvalue⟩ := agreeing_concat_iff.mp hagree
      have hbefore := ih.mpr ⟨fs, hfs, htable, hagree, rfl⟩
      rw [Outcome.bind_eq_of_ok hbefore, asking_concat]
      have hconflicts := (conflicts_asking_eq_false_iff htable hagree hmem).mpr hvalue
      simp [addName, Feature.named?_name hmem, hconflicts, bind, Except.bind, pure, Except.pure]

/-- A phoneme has all features asked for just if it has each of them. -/
lemma holds_asking_iff (htable : ∀ g ∈ fs, g ∈ Feature.table) (hagree : Agreeing fs) (p : Phoneme) :
    (asking fs).holds p = true ↔ ∀ f ∈ fs, f.isOf p = true := by
  simp only [holds, Feature.isOf, beq_iff_eq]
  constructor
  · intro h f hf
    have hvalue := value_asking_of_mem htable hagree hf
    have hmask := mask_asking fs f.family
    rw [if_pos (List.mem_map_of_mem hf)] at hmask
    rw [← h, Phoneme.get, UInt64.and_assoc, hmask] at hvalue
    exact hvalue
  · intro h
    rw [asking, Phoneme.get_allBits, List.map_map]
    exact congrArg allBits (List.map_congr_left h)

/-- No value is asked for outside of the mask: the value itself has all features asked for. -/
lemma value_asking_and_not_mask (htable : ∀ g ∈ fs, g ∈ Feature.table) (hagree : Agreeing fs) :
    (asking fs).value &&& ~~~(asking fs).mask = 0 := by
  have hholds : (asking fs).holds ⟨(asking fs).value⟩ = true :=
    (holds_asking_iff htable hagree _).mpr fun f hf =>
      beq_iff_eq.mpr (value_asking_of_mem htable hagree hf)
  have hvalue : (asking fs).value &&& (asking fs).mask = (asking fs).value := beq_iff_eq.mp hholds
  rw [← hvalue, UInt64.and_assoc, UInt64.and_not_self, UInt64.and_zero]

/-- The features that names are the names of. -/
def named (names : List String) : List Feature := names.filterMap Feature.named?

lemma named_map_name (htable : ∀ g ∈ fs, g ∈ Feature.table) : named (fs.map Feature.name) = fs := by
  rw [named, List.filterMap_map]
  exact (List.filterMap_congr fun f hf => Feature.named?_name (htable f hf)).trans List.filterMap_some

lemma mem_named {names : List String} (h : f ∈ named names) :
    f ∈ Feature.table ∧ f.name ∈ names := by
  obtain ⟨name, hname, hf⟩ := List.mem_filterMap.mp h
  have hfname : f.name = name := by simpa using List.find?_some hf
  exact ⟨List.mem_of_find?_eq_some hf, hfname ▸ hname⟩

lemma map_name_named {names : List String} (h : ∀ name ∈ names, ∃ f ∈ Feature.table, f.name = name) :
    (named names).map Feature.name = names := by
  induction names with
  | nil => rfl
  | cons name names ih =>
    obtain ⟨⟨f, hf, rfl⟩, hnames⟩ := List.forall_mem_cons.mp h
    rw [named, List.filterMap_cons_some (Feature.named?_name hf), List.map_cons, ← named, ih hnames]

lemma name_mem_map_iff (htable : ∀ g ∈ fs, g ∈ Feature.table) (hf : f ∈ Feature.table) :
    f.name ∈ fs.map Feature.name ↔ f ∈ fs := by
  refine ⟨fun h => ?_, List.mem_map_of_mem⟩
  obtain ⟨g, hg, hname⟩ := List.mem_map.mp h
  have hsame := Feature.named?_name (htable g hg)
  rw [hname, Feature.named?_name hf] at hsame
  exact Option.some.inj hsame ▸ hg

end Asking

/-- The names that a text lists. -/
def namesIn (bytes : Bytes) : List String := names (Utf8.lossy bytes)

lemma parse_eq_ok_iff {bytes : Bytes} {spec : FeatureSpec} : parse bytes = .ok spec ↔
    ∃ fs : List Feature, fs.map Feature.name = namesIn bytes ∧ (∀ f ∈ fs, f ∈ Feature.table) ∧
      Agreeing fs ∧ spec = asking fs := foldlM_empty_eq_ok_iff

lemma exists_parse_iff {bytes : Bytes} : (∃ spec, parse bytes = .ok spec) ↔
    (∀ name ∈ namesIn bytes, ∃ f ∈ Feature.table, f.name = name) ∧
      ∀ f ∈ Feature.table, ∀ g ∈ Feature.table, f.name ∈ namesIn bytes → g.name ∈ namesIn bytes →
        f.family = g.family → f.value = g.value := by
  constructor
  · rintro ⟨spec, hspec⟩
    obtain ⟨fs, hnames, htable, hagree, -⟩ := parse_eq_ok_iff.mp hspec
    rw [← hnames]
    refine ⟨List.forall_mem_map.mpr fun f hf => ⟨f, htable f hf, rfl⟩, fun f hf g hg => ?_⟩
    rw [name_mem_map_iff htable hf, name_mem_map_iff htable hg]
    exact fun hf hg => hagree f hf g hg
  · rintro ⟨hknown, hagree⟩
    refine ⟨_, parse_eq_ok_iff.mpr ⟨named (namesIn bytes), map_name_named hknown,
      fun f hf => (mem_named hf).1, fun f hf g hg => ?_, rfl⟩⟩
    exact hagree f (mem_named hf).1 g (mem_named hg).1 (mem_named hf).2 (mem_named hg).2

/-- Lists with the same names ask for the same. -/
lemma parse_ok_of_same {bytes bytes' : Bytes} {spec : FeatureSpec}
    (h : ∀ name, name ∈ namesIn bytes' ↔ name ∈ namesIn bytes) (hspec : parse bytes = .ok spec) :
    parse bytes' = .ok spec := by
  have hexists := exists_parse_iff.mp ⟨spec, hspec⟩
  simp only [← h] at hexists
  obtain ⟨spec', hspec'⟩ := exists_parse_iff.mpr hexists
  obtain ⟨fs, hnames, htable, -, rfl⟩ := parse_eq_ok_iff.mp hspec
  obtain ⟨fs', hnames', htable', -, rfl⟩ := parse_eq_ok_iff.mp hspec'
  rw [hspec', asking_congr fun f => ?_]
  by_cases hf : f ∈ Feature.table
  · rw [← name_mem_map_iff htable hf, ← name_mem_map_iff htable' hf, hnames, hnames', h]
  · exact iff_of_false (fun hmem => hf (htable' f hmem)) fun hmem => hf (htable f hmem)

/-- A list of features is read just if each name in it is that of a feature, and no two names give
different values to one family. What it asks for are all the values under the masks of all the families;
nothing is asked for outside of the mask, and a phoneme satisfies it just if it has every feature in the
list. So lists of the same names, in any order and however often, ask for the same. -/
theorem parse_names (bytes : Bytes) :
    ((∃ spec, parse bytes = .ok spec) ↔
      (∀ name ∈ namesIn bytes, ∃ f ∈ Feature.table, f.name = name) ∧
        ∀ f ∈ Feature.table, ∀ g ∈ Feature.table, f.name ∈ namesIn bytes → g.name ∈ namesIn bytes →
          f.family = g.family → f.value = g.value) ∧
    (∀ spec, parse bytes = .ok spec →
      spec.value = allBits ((named (namesIn bytes)).map Feature.value) ∧
      spec.mask = allBits ((named (namesIn bytes)).map (·.family.mask)) ∧
      spec.value &&& ~~~spec.mask = 0 ∧
      ∀ p : Phoneme, spec.holds p = true ↔
        ∀ f ∈ Feature.table, f.name ∈ namesIn bytes → f.isOf p = true) ∧
    ∀ bytes', (∀ name, name ∈ namesIn bytes' ↔ name ∈ namesIn bytes) →
      ∀ spec, parse bytes' = .ok spec ↔ parse bytes = .ok spec := by
  refine ⟨exists_parse_iff, fun spec hspec => ?_, fun bytes' h spec => ?_⟩
  · obtain ⟨fs, hnames, htable, hagree, rfl⟩ := parse_eq_ok_iff.mp hspec
    rw [← hnames, named_map_name htable]
    refine ⟨rfl, rfl, value_asking_and_not_mask htable hagree, fun p => ?_⟩
    rw [holds_asking_iff htable hagree]
    constructor
    · exact fun h f hf hname => h f ((name_mem_map_iff htable hf).mp hname)
    · exact fun h f hf => h f (htable f hf) (List.mem_map_of_mem hf)
  · exact ⟨parse_ok_of_same fun name => (h name).symm, parse_ok_of_same h⟩

/-- A list with blanks and a repeated name asks for what its names ask for in another order. -/
theorem parse_names_voiced :
    let list := Bytes.ofString "vcd, alv,,vcd"
    let other := Bytes.ofString "alv,vcd"
    (∀ name, name ∈ namesIn other ↔ name ∈ namesIn list) ∧ parse list = .ok ⟨0x420, 0xF30⟩ ∧
      parse other = .ok ⟨0x420, 0xF30⟩ ∧ (⟨0x420, 0xF30⟩ : FeatureSpec).holds ⟨0x1421⟩ = true := by
  intro list other
  have hlist : namesIn list = ["vcd", "alv", "vcd"] := by decide +kernel
  have hother : namesIn other = ["alv", "vcd"] := by decide +kernel
  have hsame : ∀ name, name ∈ namesIn other ↔ name ∈ namesIn list := by
    intro name
    simp only [hlist, hother, List.mem_cons, List.not_mem_nil, or_false]
    tauto
  have hread : parse list = .ok ⟨0x420, 0xF30⟩ := by decide +kernel
  obtain ⟨-, hasks, horder⟩ := parse_names list
  obtain ⟨-, -, -, hholds⟩ := hasks _ hread
  refine ⟨hsame, hread, (horder other hsame _).mpr hread, (hholds _).mpr ?_⟩
  rw [hlist]
  decide +kernel

end FeatureSpec

end LetterToSound
