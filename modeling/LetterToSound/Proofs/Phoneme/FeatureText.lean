import Mathlib
import LetterToSound.Proofs.Phoneme.Families
import LetterToSound.Proofs.Pattern.Grammar
import LetterToSound.Proofs.Text.Lossy
import LetterToSound.Proofs.Text.Pieces

/-!
# Feature text survives writing and reading back

A phoneme is written as the names of its features. Read back they ask for exactly the families in which
the phoneme has a feature, with the values that it has there, so the bits are the same again; and the
kind is not inferred anew, because a phoneme that has been read already has one where there is anything
to infer it from.
-/

namespace LetterToSound

namespace Feature

lemma named?_name {f : Feature} (h : f ∈ table) : named? f.name = some f := by
  revert f
  decide +kernel

lemma trim_name {f : Feature} (h : f ∈ table) : Text.trim f.name.toList = f.name.toList := by
  revert f
  decide +kernel

lemma comma_not_mem_name {f : Feature} (h : f ∈ table) : ',' ∉ f.name.toList := by
  revert f
  decide +kernel

lemma name_ne_empty {f : Feature} (h : f ∈ table) : f.name ≠ "" := by
  revert f
  decide +kernel

/-- The names are of characters before the braces. -/
lemma toNat_lt_of_mem_name {f : Feature} (h : f ∈ table) {c : Char} (hc : c ∈ f.name.toList) :
    c.toNat < Explicit.closeGroup.toNat := by
  have hall : (table.all fun f => f.name.toList.all fun c =>
    decide (c.toNat < Explicit.closeGroup.toNat)) = true := by decide +kernel
  simpa using List.all_eq_true.mp (List.all_eq_true.mp hall f h) c hc

end Feature

/-- The features of a phoneme, as they are written. -/
def Phoneme.features (p : Phoneme) : List Feature := Feature.table.filter (·.isOf p)

lemma Phoneme.mem_features {p : Phoneme} {f : Feature} :
    f ∈ p.features ↔ f ∈ Feature.table ∧ f.isOf p = true := List.mem_filter

namespace FeatureSpec

/-- Asks for the features that a phoneme has in some families. -/
def describing (p : Phoneme) (families : List Family) : FeatureSpec :=
  ⟨p.get (Family.union families), Family.union families⟩

section Describing

variable {p : Phoneme} {f : Feature} {families : List Family}

/-- Under each family there is what the phoneme has there, or nothing. -/
lemma value_describing (p : Phoneme) (families : List Family) (family : Family) :
    (describing p families).value &&& family.mask =
      if family ∈ families then p.get family.mask else 0 := by
  show p.bits &&& Family.union families &&& family.mask = _
  rw [UInt64.and_assoc, Family.union_and_mask]
  split
  · rfl
  · exact UInt64.and_zero

lemma conflicts_describing (hf : f.isOf p = true) : (describing p families).conflicts f = false := by
  rw [conflicts_eq_false_iff, value_describing]
  by_cases hmem : f.family ∈ families
  · rw [if_pos hmem]
    exact .inr (beq_iff_eq.mp hf)
  · left
    rw [describing, Family.union_and_mask, if_neg hmem]

lemma insert_describing (hf : f.isOf p = true) :
    (describing p families).insert f = describing p (f.family :: families) := by
  rw [insert, describing, describing, Family.union_cons, Phoneme.get_or, beq_iff_eq.mp hf,
    UInt64.or_comm f.value, UInt64.or_comm f.family.mask]

/-- Names of features that the phoneme has are added without a conflict. -/
lemma foldlM_describing (quoted : String) {fs : List Feature}
    (h : ∀ f ∈ fs, f ∈ Feature.table ∧ f.isOf p = true) :
    (fs.map Feature.name).foldlM (addName quoted) (describing p families) =
      .ok (describing p ((fs.map Feature.family).reverse ++ families)) := by
  induction fs generalizing families with
  | nil => rfl
  | cons f fs ih =>
    obtain ⟨⟨hf, hisOf⟩, hfs⟩ := List.forall_mem_cons.mp h
    have hadd : addName quoted (describing p families) f.name =
        .ok (describing p (f.family :: families)) := by
      rw [addName, Feature.named?_name hf]
      dsimp only
      rw [conflicts_describing hisOf, if_neg Bool.false_ne_true, insert_describing hisOf]
    rw [List.map_cons, List.foldlM_cons, hadd]
    exact (ih hfs).trans (by simp)

end Describing

/-- The families that a phoneme has a feature in hold all of its bits. -/
lemma value_describing_features {p : Phoneme} {families : List Family}
    (hregular : ∀ family, p.Regular family) (hinside : p.get Family.outside = 0)
    (hfamilies : ∀ f ∈ p.features, f.family ∈ families) :
    Phoneme.mk (describing p families).value = p := by
  refine Phoneme.ext_of_families (fun family => ?_) ?_
  · refine (value_describing p families family).trans ?_
    by_cases hmem : family ∈ families
    · rw [if_pos hmem]
    · rw [if_neg hmem]
      rcases hregular family with hzero | ⟨f, hf, rfl, hvalue⟩
      · exact hzero.symm
      · exact absurd (hfamilies f (Phoneme.mem_features.mpr ⟨hf, beq_iff_eq.mpr hvalue⟩)) hmem
  · show p.bits &&& Family.union families &&& Family.outside = _
    rw [UInt64.and_assoc, UInt64.and_comm (Family.union families), ← UInt64.and_assoc]
    change p.get Family.outside &&& _ = _
    rw [hinside, UInt64.zero_and]

/-- The names in a written list are those it was written from. -/
lemma names_intercalate {fs : List Feature} (h : ∀ f ∈ fs, f ∈ Feature.table) :
    names (",".intercalate (fs.map Feature.name)) = fs.map Feature.name := by
  have hcomma : (",".intercalate (fs.map Feature.name)).toList =
      [','].intercalate (fs.map fun f => f.name.toList) := by
    rw [String.toList_intercalate, List.map_map]
    rfl
  rw [names, hcomma]
  by_cases hnil : fs = []
  · subst hnil
    decide +kernel
  · rw [Text.cutAt_intercalate (by simpa using hnil)
      (List.forall_mem_map.mpr fun f hf => Feature.comma_not_mem_name (h f hf)), List.map_map]
    have htrim : ∀ f ∈ fs, String.ofList (Text.trim f.name.toList) = f.name := fun f hf => by
      rw [Feature.trim_name (h f hf), String.ofList_toList]
    rw [show (fs.map ((fun piece => String.ofList (Text.trim piece)) ∘ fun f => f.name.toList)) =
      fs.map Feature.name from List.map_congr_left htrim, List.filter_eq_self]
    exact List.forall_mem_map.mpr fun f hf => by simpa using Feature.name_ne_empty (h f hf)

end FeatureSpec

namespace Explicit

/-- What feature text can tell of a phoneme: in each family no feature or one of the table, nothing
outside of the families, and a kind unless there is nothing to infer one from. -/
structure Writable (p : Phoneme) : Prop where
  regular : ∀ family, p.Regular family
  inside : p.get Family.outside = 0
  kind : p.get Family.kind.mask = 0 →
    ∀ family ∈ [Family.place, .manner, .height, .backness], p.get family.mask = 0

/-- The features of a phoneme as they stand between the braces. -/
def listed (p : Phoneme) : String := ",".intercalate (p.features.map Feature.name)

lemma toNat_lt_of_mem_listed {p : Phoneme} {c : Char} (h : c ∈ (listed p).toList) :
    c.toNat < closeGroup.toNat := by
  rw [listed, String.toList_intercalate] at h
  rcases Text.mem_of_mem_intercalate h with h | ⟨name, hname, hc⟩
  · rw [show c = ',' by simpa using h]
    decide
  · simp only [List.mem_map, exists_exists_and_eq_and] at hname
    obtain ⟨f, hf, rfl⟩ := hname
    exact Feature.toNat_lt_of_mem_name (Phoneme.mem_features.mp hf).1 hc

lemma closeGroup_not_mem_listed (p : Phoneme) : closeGroup ∉ Bytes.ofString (listed p) := by
  have hascii : ∀ c ∈ (listed p).toList, c.toNat < 128 := fun c hc =>
    (toNat_lt_of_mem_listed hc).trans (by decide)
  rw [Utf8.ofString_of_ascii hascii, List.mem_map]
  rintro ⟨c, hc, heq⟩
  have hlt := toNat_lt_of_mem_listed hc
  rw [← heq, UInt8.toNat_ofNat'] at hlt
  omega

lemma lossy_listed (p : Phoneme) : Utf8.lossy (Bytes.ofString (listed p)) = listed p :=
  Utf8.lossy_ofString fun _ hc => (toNat_lt_of_mem_listed hc).trans (by decide)

/-- A phoneme is written between braces. -/
lemma ofString_writeOne (p : Phoneme) :
    Bytes.ofString (writeOne p) = openGroup :: Bytes.ofString (listed p) ++ [closeGroup] := by
  rw [writeOne, Bytes.ofString_append, Bytes.ofString_append]
  rfl

/-- A phoneme is given a kind, or it is left as it is because it has one or there is nothing to infer
one from. -/
lemma inferKind_cases (p : Phoneme) :
    (∃ f ∈ Feature.table, f.family = .kind ∧ inferKind p = p.set f.value Family.kind.mask) ∨
      (inferKind p = p ∧ (p.get Family.kind.mask = 0 →
        ∀ family ∈ [Family.place, .manner, .height, .backness], p.get family.mask = 0)) := by
  unfold inferKind
  split_ifs with hkind hconsonant hvowel
  · exact .inr ⟨rfl, fun hzero => absurd hzero (by simpa using hkind)⟩
  · exact .inl ⟨Feature.consonant, by decide, rfl, rfl⟩
  · exact .inl ⟨Feature.vowel, by decide, rfl, rfl⟩
  · refine .inr ⟨rfl, fun _ => ?_⟩
    simp only [bne_iff_ne, ne_eq, not_not, Phoneme.get_or_eq_zero_iff] at hconsonant hvowel
    simp [hconsonant, hvowel]

/-- A kind is not inferred where there is one or nothing to infer it from. -/
lemma Writable.inferKind_eq {p : Phoneme} (h : Writable p) : inferKind p = p := by
  by_cases hkind : p.get Family.kind.mask = 0
  · have hnone := h.kind hkind
    simp only [List.forall_mem_cons] at hnone
    obtain ⟨hplace, hmanner, hheight, hbackness, -⟩ := hnone
    simp [inferKind, Phoneme.get_or, hplace, hmanner, hheight, hbackness]
  · rw [inferKind, if_pos (by simpa using hkind)]

/-- A phoneme that is given a kind can be told. -/
lemma writable_set_kind {p : Phoneme} {f : Feature} (hf : f ∈ Feature.table) (hkind : f.family = .kind)
    (hregular : ∀ family, p.Regular family) (hinside : p.get Family.outside = 0) :
    Writable (p.set f.value Family.kind.mask) := by
  have hvalue : (p.set f.value Family.kind.mask).get Family.kind.mask = f.value := by
    rw [Phoneme.get_set, ← hkind, Feature.value_and_mask hf]
  have hvalueRegular : Phoneme.Regular ⟨f.value⟩ .kind := hkind ▸ Feature.regular_value hf
  refine ⟨fun family => (hregular family).set hvalueRegular, ?_, fun hzero => ?_⟩
  · rw [Phoneme.get_set_of_disjoint p _ (by decide)]
    exact hinside
  · rw [hvalue] at hzero
    exact absurd hzero (Feature.value_ne_zero hf)

/-- With its kind inferred a phoneme can be told. -/
lemma writable_inferKind {p : Phoneme} (hregular : ∀ family, p.Regular family)
    (hinside : p.get Family.outside = 0) : Writable (inferKind p) := by
  rcases inferKind_cases p with ⟨f, hf, hkind, hset⟩ | ⟨hsame, hnone⟩
  · rw [hset]
    exact writable_set_kind hf hkind hregular hinside
  · rw [hsame]
    exact ⟨hregular, hinside, hnone⟩

/-- What is read between two braces can be told. -/
lemma writable_of_group {inside : Bytes} {p : Phoneme} (h : group inside = .ok p) : Writable p := by
  rw [group] at h
  cases hspec : FeatureSpec.parse inside with
  | error e =>
    rw [hspec] at h
    cases h
  | ok spec =>
    rw [hspec] at h
    cases h
    have hconsistent := FeatureSpec.consistent_of_parse hspec
    exact writable_inferKind hconsistent.regular hconsistent.inside

lemma writable_of_parseRest {size : Nat} {read ps : List Phoneme} {bytes : Bytes}
    (h : parseRest size read bytes = .ok ps) (hread : ∀ p ∈ read, Writable p) :
    ∀ p ∈ ps, Writable p := by
  fun_induction parseRest size read bytes with
  | case1 read =>
    cases h
    exact fun p hp => hread p (List.mem_reverse.mp hp)
  | case2 read b rest hblank ih => exact ih h hread
  | case3 => cases h
  | case4 => cases h
  | case5 read rest inside tail hsplit p hp hblank ih =>
    exact ih h (List.forall_mem_cons.mpr ⟨writable_of_group hp, hread⟩)
  | case6 => cases h

lemma parse_listed (p : Phoneme) : FeatureSpec.parse (Bytes.ofString (listed p)) =
    .ok (.describing p (p.features.map Feature.family).reverse) := by
  have hfeatures : ∀ f ∈ p.features, f ∈ Feature.table ∧ f.isOf p = true := fun f hf =>
    Phoneme.mem_features.mp hf
  have hempty : FeatureSpec.empty = FeatureSpec.describing p [] := by
    simp [FeatureSpec.describing, FeatureSpec.empty, Family.union, Phoneme.get]
  rw [FeatureSpec.parse, lossy_listed, listed,
    FeatureSpec.names_intercalate fun f hf => (hfeatures f hf).1, hempty,
    FeatureSpec.foldlM_describing _ hfeatures, List.append_nil]

/-- The features of a phoneme are read back as that phoneme. -/
lemma group_listed {p : Phoneme} (h : Writable p) : group (Bytes.ofString (listed p)) = .ok p := by
  have hvalue :
      Phoneme.mk (FeatureSpec.describing p (p.features.map Feature.family).reverse).value = p :=
    FeatureSpec.value_describing_features h.regular h.inside fun f hf =>
      List.mem_reverse.mpr (List.mem_map_of_mem hf)
  rw [group, parse_listed]
  show Except.ok (inferKind _) = _
  rw [hvalue, h.inferKind_eq]

/-- A written phoneme is read, and then what follows it. -/
lemma parseRest_writeOne {p : Phoneme} (h : Writable p) (size : Nat) (read : List Phoneme)
    (rest : Bytes) : parseRest size read (Bytes.ofString (writeOne p) ++ rest) =
      parseRest size (p :: read) rest := by
  have hsplit : splitGroup? (Bytes.ofString (listed p) ++ closeGroup :: rest) =
      some (Bytes.ofString (listed p), rest) :=
    SourcePattern.splitGroup?_append_cons rest (closeGroup_not_mem_listed p)
  rw [ofString_writeOne, List.cons_append, List.cons_append, List.append_assoc,
    List.singleton_append, parseRest, if_neg (by decide), if_pos rfl]
  split
  · rename_i heq
    rw [hsplit] at heq
    cases heq
  · rename_i heq
    rw [hsplit] at heq
    cases heq
    rw [group_listed h]

lemma parseRest_write {ps : List Phoneme} (h : ∀ p ∈ ps, Writable p) (size : Nat)
    (read : List Phoneme) :
    parseRest size read (Bytes.ofString (write ps)) = .ok (read.reverse ++ ps) := by
  induction ps generalizing read with
  | nil =>
    show parseRest size read [] = _
    rw [parseRest, List.append_nil]
  | cons p ps ih =>
    obtain ⟨hp, hps⟩ := List.forall_mem_cons.mp h
    rw [write, List.map_cons, String.join_cons, Bytes.ofString_append, parseRest_writeOne hp]
    exact (ih hps _).trans (by simp)

/-- Phonemes that feature text can tell are read back from how they are written. All that is read from
feature text are such, so reading it, writing it and reading it again gives the same phonemes, and
writing those the same text. -/
theorem parse_write (ps : List Phoneme) :
    ((∀ p ∈ ps, Writable p) → parse (Bytes.ofString (write ps)) = .ok ps) ∧
      ∀ text, parse text = .ok ps → parse (Bytes.ofString (write ps)) = .ok ps ∧
        (parse (Bytes.ofString (write ps))).map write = .ok (write ps) := by
  have hwritten (hps : ∀ p ∈ ps, Writable p) : parse (Bytes.ofString (write ps)) = .ok ps :=
    parseRest_write hps _ []
  refine ⟨hwritten, fun text htext => ?_⟩
  have hread := hwritten (writable_of_parseRest htext (List.forall_mem_nil _))
  refine ⟨hread, ?_⟩
  rw [hread]
  rfl

/-- A voiced sound of no kind is told as it is; a plosive is written with the kind that was inferred. -/
theorem parse_write_inferred : parse (Bytes.ofString (write [⟨0x20⟩])) = .ok [⟨0x20⟩] ∧
    write [⟨0x1401⟩] = "\x7bcon,alv,stp\x7d" ∧
    parse (Bytes.ofString (write [⟨0x1401⟩])) = .ok [⟨0x1401⟩] := by
  have hwritable : Writable ⟨0x20⟩ := by
    refine ⟨fun family => ?_, by decide, fun _ => by decide⟩
    cases family with
    | voicing => exact .inr ⟨Feature.voiced, by decide, rfl, by decide⟩
    | _ => exact .inl (by decide)
  have hread : parse (Bytes.ofString "\x7bstp, alv\x7d") = .ok [⟨0x1401⟩] := by decide +kernel
  exact ⟨(parse_write _).1 (by simpa using hwritable), by decide +kernel,
    ((parse_write _).2 _ hread).1⟩

end Explicit

end LetterToSound
