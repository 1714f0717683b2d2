import Mathlib
import LetterToSound.Outcome
import LetterToSound.Phoneme.Explicit

/-!
# Phonemes family by family

A phoneme is what its families are: the masks of families share no bit, so a phoneme without further
bits is known when it is known under each of them. In a family a phoneme has no feature or one of the
table, and this is all that lists of features can make.
-/

namespace LetterToSound

lemma and_or_distrib (a b c : UInt64) : a &&& (b ||| c) = a &&& b ||| a &&& c := by
  apply UInt64.eq_of_toBitVec_eq
  simp only [UInt64.toBitVec_and, UInt64.toBitVec_or, BitVec.and_or_distrib_left]

lemma or_and_distrib (a b c : UInt64) : (a ||| b) &&& c = a &&& c ||| b &&& c := by
  rw [UInt64.and_comm, and_or_distrib, UInt64.and_comm c a, UInt64.and_comm c b]

namespace Family

/-- Every family, in the order of the table. -/
def all : List Family :=
  [kind, voicing, place, manner, height, backness, rounding, aspiration, length, stress]

/-- The bits of families together. -/
def union (families : List Family) : UInt64 :=
  families.foldr (fun family bits => family.mask ||| bits) 0

/-- The bits that belong to no family, which have no meaning. -/
def outside : UInt64 := ~~~ union all

lemma union_cons (family : Family) (families : List Family) :
    union (family :: families) = family.mask ||| union families := rfl

/-- Families together have all bits of a family that is among them, and none of any other. -/
lemma union_and_mask (families : List Family) (family : Family) :
    union families &&& family.mask = if family ∈ families then family.mask else 0 := by
  induction families with
  | nil => simp [union]
  | cons other families ih =>
    rw [union_cons, or_and_distrib, ih]
    by_cases h : other = family
    · subst h
      by_cases hmem : other ∈ families <;> simp [hmem]
    · have hne : family ≠ other := fun heq => h heq.symm
      simp [mask_and_mask h, hne]

end Family

namespace Phoneme

lemma get_or (p : Phoneme) (a b : UInt64) : p.get (a ||| b) = p.get a ||| p.get b := and_or_distrib _ _ _

lemma get_or_eq_zero_iff {p : Phoneme} {a b : UInt64} :
    p.get (a ||| b) = 0 ↔ p.get a = 0 ∧ p.get b = 0 := by
  rw [get_or, UInt64.or_eq_zero_iff]

/-- A phoneme is known from its bits under a mask and those outside of it. -/
lemma ext_of_mask {p q : Phoneme} (mask : UInt64) (h : p.get mask = q.get mask)
    (hnot : p.get (~~~mask) = q.get (~~~mask)) : p = q := by
  have hsplit (r : Phoneme) : r.bits = r.get mask ||| r.get (~~~mask) := by
    rw [← get_or, get, UInt64.or_not_self]
    simp
  have hbits : p.bits = q.bits := by rw [hsplit p, hsplit q, h, hnot]
  cases p
  cases q
  exact congrArg Phoneme.mk hbits

lemma get_union {p q : Phoneme} {families : List Family}
    (h : ∀ family ∈ families, p.get family.mask = q.get family.mask) :
    p.get (Family.union families) = q.get (Family.union families) := by
  induction families with
  | nil => simp [Family.union, get]
  | cons family families ih =>
    obtain ⟨hfamily, hfamilies⟩ := List.forall_mem_cons.mp h
    rw [Family.union_cons, get_or, get_or, hfamily, ih hfamilies]

/-- A phoneme is known from its families and the bits outside of all of them. -/
theorem ext_of_families {p q : Phoneme} (h : ∀ family : Family, p.get family.mask = q.get family.mask)
    (houtside : p.get Family.outside = q.get Family.outside) : p = q :=
  ext_of_mask (Family.union Family.all) (get_union fun family _ => h family) houtside

/-- Whether a phoneme has no feature of a family, or one of the table. -/
def Regular (p : Phoneme) (family : Family) : Prop :=
  p.get family.mask = 0 ∨ ∃ f ∈ Feature.table, f.family = family ∧ p.get family.mask = f.value

lemma Regular.mem_values {p : Phoneme} {family : Family} (h : p.Regular family) :
    p.get family.mask ∈ 0 :: (Feature.table.filter (·.family = family)).map Feature.value := by
  rcases h with hzero | ⟨f, hf, hfamily, hvalue⟩
  · rw [hzero]
    exact List.mem_cons_self
  · rw [hvalue]
    refine List.mem_cons_of_mem _ (List.mem_map_of_mem (List.mem_filter.mpr ⟨hf, ?_⟩))
    simpa using hfamily

/-- What is set in a family is regular where it was before, and there when what is set is. -/
lemma Regular.set {p : Phoneme} {value : UInt64} {family other : Family} (h : p.Regular other)
    (hvalue : Regular ⟨value⟩ family) : (p.set value family.mask).Regular other := by
  by_cases hsame : other = family
  · subst hsame
    rw [Regular, get_set]
    exact hvalue
  · rw [Regular, get_set_of_disjoint p value (Family.mask_and_mask (Ne.symm hsame))]
    exact h

end Phoneme

namespace Feature

/-- A feature has no bits of another family. -/
lemma value_and_mask_of_ne {f : Feature} (h : f ∈ table) {family : Family}
    (hne : f.family ≠ family) : f.value &&& family.mask = 0 := by
  rw [← value_and_mask h, UInt64.and_assoc, Family.mask_and_mask hne, UInt64.and_zero]

lemma regular_value {f : Feature} (h : f ∈ table) : Phoneme.Regular ⟨f.value⟩ f.family :=
  .inr ⟨f, h, rfl, value_and_mask h⟩

lemma value_and_outside {f : Feature} (h : f ∈ table) : f.value &&& Family.outside = 0 := by
  revert f
  decide

end Feature

namespace FeatureSpec

/-- What every list of features comes to: in each family no value or one of the table, no value where
nothing is asked for, and nothing outside of the families. -/
structure Consistent (spec : FeatureSpec) : Prop where
  regular : ∀ family, Phoneme.Regular ⟨spec.value⟩ family
  masked : ∀ family : Family, spec.mask &&& family.mask = 0 → spec.value &&& family.mask = 0
  inside : spec.value &&& Family.outside = 0

lemma consistent_empty : empty.Consistent where
  regular _ := .inl UInt64.zero_and
  masked _ _ := UInt64.zero_and
  inside := UInt64.zero_and

lemma conflicts_eq_false_iff {spec : FeatureSpec} {f : Feature} : spec.conflicts f = false ↔
    spec.mask &&& f.family.mask = 0 ∨ spec.value &&& f.family.mask = f.value := by
  simp only [conflicts, Bool.and_eq_false_iff, bne_eq_false_iff_eq]

/-- A feature that is asked for is the value of its family from then on. -/
lemma value_insert {spec : FeatureSpec} (h : spec.Consistent) {f : Feature} (hf : f ∈ Feature.table)
    (hconflicts : spec.conflicts f = false) (family : Family) :
    (spec.insert f).value &&& family.mask =
      if family = f.family then f.value else spec.value &&& family.mask := by
  rw [insert, or_and_distrib]
  split
  · rename_i hfamily
    subst hfamily
    rw [Feature.value_and_mask hf]
    rcases conflicts_eq_false_iff.mp hconflicts with hmask | hvalue
    · rw [h.masked _ hmask, UInt64.zero_or]
    · rw [hvalue, UInt64.or_self]
  · rename_i hfamily
    rw [Feature.value_and_mask_of_ne hf (Ne.symm hfamily), UInt64.or_zero]

lemma Consistent.insert {spec : FeatureSpec} (h : spec.Consistent) {f : Feature}
    (hf : f ∈ Feature.table) (hconflicts : spec.conflicts f = false) :
    (spec.insert f).Consistent where
  regular family := by
    have hvalue := value_insert h hf hconflicts family
    by_cases hfamily : family = f.family
    · rw [if_pos hfamily] at hvalue
      exact .inr ⟨f, hf, hfamily.symm, hvalue⟩
    · rw [if_neg hfamily] at hvalue
      have hregular := h.regular family
      simp only [Phoneme.Regular, Phoneme.get] at hregular ⊢
      rwa [hvalue]
  masked family hmask := by
    rw [FeatureSpec.insert, or_and_distrib, UInt64.or_eq_zero_iff] at hmask
    have hne : family ≠ f.family := by
      rintro rfl
      have hzero := hmask.2
      rw [UInt64.and_self] at hzero
      exact absurd hzero (by cases f.family <;> decide)
    rw [value_insert h hf hconflicts, if_neg hne, h.masked family hmask.1]
  inside := by
    rw [FeatureSpec.insert, or_and_distrib, h.inside, Feature.value_and_outside hf, UInt64.zero_or]

lemma addName_ok {quoted name : String} {spec result : FeatureSpec}
    (h : addName quoted spec name = .ok result) :
    ∃ f ∈ Feature.table, f.name = name ∧ spec.conflicts f = false ∧ result = spec.insert f := by
  unfold addName at h
  split at h
  · cases h
  · rename_i f hf
    split at h
    · cases h
    · rename_i hconflicts
      cases h
      exact ⟨f, List.mem_of_find?_eq_some hf, by simpa using List.find?_some hf,
        by simpa using hconflicts, rfl⟩

lemma Consistent.of_foldlM {quoted : String} {names : List String} {spec result : FeatureSpec}
    (h : spec.Consistent) (hfold : names.foldlM (addName quoted) spec = .ok result) :
    result.Consistent := by
  induction names generalizing spec with
  | nil =>
    cases hfold
    exact h
  | cons name names ih =>
    rw [List.foldlM_cons] at hfold
    obtain ⟨next, hnext, hfold⟩ := Outcome.exists_of_bind_eq_ok hfold
    obtain ⟨f, hf, -, hconflicts, rfl⟩ := addName_ok hnext
    exact ih (h.insert hf hconflicts) hfold

/-- Reading a list of features never mixes two features of a family. -/
theorem consistent_of_parse {bytes : Bytes} {spec : FeatureSpec} (h : parse bytes = .ok spec) :
    spec.Consistent :=
  consistent_empty.of_foldlM h

end FeatureSpec

end LetterToSound
