import Mathlib
import LetterToSound.Language.Condition

/-!
# Flags of a locale

A tag covers itself, and what a tag that it covers covers. A flag is set when one of its conditionals
sets it, so neither the order of conditionals nor a repetition among them has any bearing on it; and
where none of them asks for a locale to be left out, a locale has the flags of every tag that covers it.
-/

namespace LetterToSound

namespace Locale

/-- Whether a tag ends in front of these bytes: there is nothing, or a separator first. -/
def AtSeparator (rest : Bytes) : Prop := ∀ b ∈ rest.head?, isSeparator b = true

lemma AtSeparator.append {first rest : Bytes} (hfirst : AtSeparator first)
    (hrest : AtSeparator rest) : AtSeparator (first ++ rest) := by
  cases first with
  | nil => exact hrest
  | cons b first => exact hfirst

/-- No letter is a separator, in upper or in lower case. -/
lemma isSeparator_lower (b : UInt8) : isSeparator (lower b) = isSeparator b := by
  unfold lower isSeparator
  grind

lemma atSeparator_map_lower {rest : Bytes} : AtSeparator (rest.map lower) ↔ AtSeparator rest := by
  simp [AtSeparator, isSeparator_lower]

lemma covers_iff_folded {pattern locale : String} : covers pattern locale = true ↔
    ∃ rest, folded pattern ++ rest = folded locale ∧ AtSeparator rest := by
  simp only [← List.isPrefixOf?_eq_some_iff_append_eq, covers, AtSeparator]
  cases (folded pattern).isPrefixOf? (folded locale) with
  | none => simp
  | some rest => cases rest <;> simp

/-- A tag covers a locale of which it is the whole, or a part up to a separator, whatever letters of
both are in upper case. -/
lemma covers_iff {pattern locale : String} : covers pattern locale = true ↔
    ∃ head rest, Bytes.ofString locale = head ++ rest ∧
      head.map lower = (Bytes.ofString pattern).map lower ∧ AtSeparator rest := by
  rw [covers_iff_folded, folded, folded]
  constructor
  · rintro ⟨_, hfolded, hrest⟩
    obtain ⟨head, rest, hlocale, hhead, rfl⟩ := List.map_eq_append_iff.mp hfolded.symm
    exact ⟨head, rest, hlocale, hhead, atSeparator_map_lower.mp hrest⟩
  · rintro ⟨head, rest, hlocale, hhead, hrest⟩
    exact ⟨rest.map lower, by rw [hlocale, List.map_append, hhead], atSeparator_map_lower.mpr hrest⟩

lemma covers_refl (locale : String) : covers locale locale = true :=
  covers_iff_folded.mpr ⟨[], List.append_nil _, by simp [AtSeparator]⟩

/-- What is behind the first tag is a rest of the second one, and then a rest of the third. -/
lemma covers_trans {a b c : String} (hab : covers a b = true) (hbc : covers b c = true) :
    covers a c = true := by
  obtain ⟨first, hfirst, hfirstEnds⟩ := covers_iff_folded.mp hab
  obtain ⟨second, hsecond, hsecondEnds⟩ := covers_iff_folded.mp hbc
  refine covers_iff_folded.mpr ⟨first ++ second, ?_, hfirstEnds.append hsecondEnds⟩
  rw [← List.append_assoc, hfirst, hsecond]

end Locale

namespace Language.Condition

open LetterToSound.Locale (covers AtSeparator lower)

variable {cs cs' : List Condition} {locale below : String} {id : UInt8}

lemma holds_eq_true_iff {c : Condition} : c.holds locale = true ↔
    c.polarity = .set ∧ covers c.locale locale = true ∨
      c.polarity = .unset ∧ covers c.locale locale = false := by
  rw [holds]
  cases c.polarity <;> simp

/-- Setting flags one after the other sets each flag that is there and is asked for. -/
lemma getElem?_foldl_set (cs : List Condition) (flags : Array Bool) (i : Nat) :
    (cs.foldl (fun flags c => flags.setIfInBounds c.id.toNat true) flags)[i]? =
      flags[i]?.map fun isSet => isSet || cs.any (·.id.toNat == i) := by
  induction cs generalizing flags with
  | nil => simp
  | cons c cs ih =>
    rw [List.foldl_cons, ih, Array.getElem?_setIfInBounds]
    by_cases hid : c.id.toNat = i
    · subst hid
      by_cases hlt : c.id.toNat < flags.size <;> simp [hlt]
    · rw [if_neg hid, List.any_cons, beq_false_of_ne hid, Bool.false_or]

lemma lt_foldl_max_iff {n start : Nat} {sizes : List Nat} :
    n < sizes.foldl max start ↔ n < start ∨ ∃ size ∈ sizes, n < size := by
  induction sizes generalizing start with
  | nil => simp
  | cons size sizes ih => simp [ih, or_assoc]

/-- There is a flag for each number up to the greatest id. -/
lemma lt_flagCount_iff {i : Nat} : i < flagCount cs ↔ ∃ c ∈ cs, i ≤ c.id.toNat := by
  simp [flagCount, lt_foldl_max_iff]

lemma getElem?_flags (cs : List Condition) (locale : String) (i : Nat) :
    (flags cs locale)[i]? = if i < flagCount cs then
      some ((cs.filter (·.holds locale)).any (·.id.toNat == i)) else none := by
  rw [flags, getElem?_foldl_set, Array.getElem?_replicate]
  split <;> simp

/-- A flag is set just if one of its conditionals sets it. -/
lemma isSet_flags_iff : isSet (flags cs locale) id = true ↔
    ∃ c ∈ cs, c.id = id ∧ c.holds locale = true := by
  have hcount : (∃ c ∈ cs, c.id = id ∧ c.holds locale = true) → id.toNat < flagCount cs := by
    rintro ⟨c, hc, rfl, -⟩
    exact lt_flagCount_iff.mpr ⟨c, hc, Nat.le_refl _⟩
  rw [isSet, getElem?_flags]
  split
  · simp [UInt8.toNat_inj, and_comm]
  · rename_i hlt
    simpa using fun c hc hid => (mt hcount hlt ⟨c, hc, hid, ·⟩)

/-- Only which conditionals there are matters to the flags. -/
lemma flags_congr (h : ∀ c, c ∈ cs' ↔ c ∈ cs) (locale : String) :
    flags cs' locale = flags cs locale := by
  have hcount : flagCount cs' = flagCount cs := by
    refine eq_of_forall_lt_iff fun i => ?_
    simp only [lt_flagCount_iff, h]
  refine Array.ext_getElem? fun i => ?_
  have hany : (cs'.filter (·.holds locale)).any (·.id.toNat == i) =
      (cs.filter (·.holds locale)).any (·.id.toNat == i) := by
    rw [Bool.eq_iff_iff]
    simp only [List.any_eq_true, List.mem_filter, h]
  rw [getElem?_flags, getElem?_flags, hcount, hany]

/-- Without conditionals that unset, a locale has every flag of a tag that covers it. -/
lemma isSet_flags_of_covers (hset : ∀ c ∈ cs, c.polarity = .set)
    (hcovers : covers locale below = true) (h : isSet (flags cs locale) id = true) :
    isSet (flags cs below) id = true := by
  obtain ⟨c, hc, hid, hholds⟩ := isSet_flags_iff.mp h
  have hpolarity := hset c hc
  refine isSet_flags_iff.mpr ⟨c, hc, hid, ?_⟩
  rw [holds, hpolarity] at hholds ⊢
  exact Locale.covers_trans hholds hcovers

/-- A flag is set just if a conditional sets it, one without conditionals is not, and a list of the
same conditionals in another order or number gives the same flags. Covering is reflexive and transitive:
a tag covers what it is, or is a part of up to a separator, whatever letters are in upper case. So
without conditionals that unset, flags are handed down to all that a locale covers. -/
theorem flags_inherited (cs : List Condition) (locale : String) :
    (∀ id, isSet (flags cs locale) id = true ↔ ∃ c ∈ cs, c.id = id ∧
      (c.polarity = .set ∧ covers c.locale locale = true ∨
        c.polarity = .unset ∧ covers c.locale locale = false)) ∧
    (∀ id, (∀ c ∈ cs, c.id ≠ id) → isSet (flags cs locale) id = false) ∧
    (∀ cs' : List Condition, (∀ c, c ∈ cs' ↔ c ∈ cs) → flags cs' locale = flags cs locale) ∧
    covers locale locale = true ∧
    (∀ pattern parent, covers pattern parent = true → covers parent locale = true →
      covers pattern locale = true) ∧
    (∀ pattern, covers pattern locale = true ↔ ∃ head rest,
      Bytes.ofString locale = head ++ rest ∧
        head.map lower = (Bytes.ofString pattern).map lower ∧ AtSeparator rest) ∧
    ∀ below, (∀ c ∈ cs, c.polarity = .set) → covers locale below = true →
      ∀ id, isSet (flags cs locale) id = true → isSet (flags cs below) id = true := by
  refine ⟨fun id => ?_, fun id hnone => ?_, fun cs' h => flags_congr h locale,
    Locale.covers_refl locale, fun _ _ => Locale.covers_trans, fun _ => Locale.covers_iff,
    fun below hset hcovers id => isSet_flags_of_covers hset hcovers⟩
  · simp only [isSet_flags_iff, holds_eq_true_iff]
  · rw [← Bool.not_eq_true, isSet_flags_iff]
    rintro ⟨c, hc, hid, -⟩
    exact hnone c hc hid

/-- Two tags of one language, the second one under the first. -/
def tags : List Condition := [⟨1, .set, "en"⟩, ⟨2, .set, "en-GB"⟩]

/-- What is set for a language is set for its regions, in whatever order it has been said. -/
theorem flags_inherited_region :
    covers "en" "EN_gb" = true ∧ isSet (flags tags "en") 1 = true ∧
      isSet (flags tags "EN_gb") 1 = true ∧ isSet (flags tags "en") 3 = false ∧
      flags (tags.reverse ++ tags) "en" = flags tags "en" := by
  obtain ⟨hflags, hnone, hsame, -, -, hcovers, hbelow⟩ := flags_inherited tags "en"
  have hregion : covers "en" "EN_gb" = true := by decide +kernel
  have hone : isSet (flags tags "en") 1 = true :=
    (hflags 1).mpr ⟨⟨1, .set, "en"⟩, by decide, rfl, .inl ⟨rfl, by decide +kernel⟩⟩
  refine ⟨hregion, hone, hbelow "EN_gb" (by decide) hregion 1 hone, hnone 3 (by decide), ?_⟩
  exact hsame (tags.reverse ++ tags) fun c => by simp

end Language.Condition

end LetterToSound
