import Mathlib
import LetterToSound.Phoneme.Alphabet
import LetterToSound.Proofs.Pattern.Grammar
import LetterToSound.Proofs.Phoneme.Families
import LetterToSound.Proofs.Text.Lossy
import LetterToSound.Proofs.Text.Pieces

/-!
# Phoneme text has no zero bytes

No alphabet reads a zero byte: it is no blank and no mark, no symbol has one, and neither has the name of
a feature, so that a list with a zero byte names something that is none. Text that has been read as
phonemes is therefore kept as it is where strings end at their first zero byte.
-/

namespace LetterToSound

namespace Text

lemma mem_dropWhile {α : Type} {a : α} {items : List α} {p : α → Bool} (h : a ∈ items)
    (hp : p a = false) : a ∈ items.dropWhile p := by
  rw [← List.takeWhile_append_dropWhile (p := p) (l := items)] at h
  refine (List.mem_append.mp h).resolve_left fun htake => ?_
  rw [List.mem_takeWhile_imp htake] at hp
  cases hp

/-- What is no white space is left by trimming. -/
lemma mem_trim {c : Char} {cs : List Char} (h : c ∈ cs) (hc : isWhiteSpace c = false) :
    c ∈ trim cs := by
  rw [trim, List.mem_reverse]
  refine mem_dropWhile ?_ hc
  rw [List.mem_reverse]
  exact mem_dropWhile h hc

end Text

namespace FeatureSpec

lemma exists_feature_of_foldlM {quoted : String} {names : List String} {spec result : FeatureSpec}
    (h : names.foldlM (addName quoted) spec = .ok result) :
    ∀ name ∈ names, ∃ f ∈ Feature.table, f.name = name := by
  induction names generalizing spec with
  | nil => simp
  | cons name names ih =>
    rw [List.foldlM_cons] at h
    obtain ⟨next, hnext, h⟩ := Outcome.exists_of_bind_eq_ok h
    obtain ⟨f, hf, hname, -, -⟩ := addName_ok hnext
    exact List.forall_mem_cons.mpr ⟨⟨f, hf, hname⟩, ih h⟩

/-- A list of features has no byte of ASCII that separates no names, is no white space, and is in no
name. -/
lemma not_mem_of_parse {b : UInt8} (hb : b.toNat < 128) (hcomma : Char.ofNat b.toNat ≠ ',')
    (hblank : Text.isWhiteSpace (Char.ofNat b.toNat) = false)
    (hnames : ∀ f ∈ Feature.table, Char.ofNat b.toNat ∉ f.name.toList) {bytes : Bytes}
    {spec : FeatureSpec} (h : parse bytes = .ok spec) : b ∉ bytes := by
  intro hmem
  obtain ⟨piece, hpiece, hmem⟩ := Text.exists_mem_cutAt (Utf8.ascii_mem_lossy hb hmem) hcomma
  have htrim := Text.mem_trim hmem hblank
  have hname : String.ofList (Text.trim piece) ∈ names (Utf8.lossy bytes) := by
    refine List.mem_filter.mpr ⟨List.mem_map_of_mem hpiece, ?_⟩
    rw [decide_eq_true_eq]
    intro hempty
    rw [← String.toList_ofList (l := Text.trim piece), hempty] at htrim
    cases htrim
  obtain ⟨f, hf, hfname⟩ := exists_feature_of_foldlM h _ hname
  rw [← String.toList_ofList (l := Text.trim piece), ← hfname] at htrim
  exact hnames f hf htrim

/-- A list of features has no zero byte. -/
lemma zero_not_mem_of_parse {bytes : Bytes} {spec : FeatureSpec} (h : parse bytes = .ok spec) :
    0 ∉ bytes :=
  not_mem_of_parse (by decide) (by decide) (by decide) (by decide +kernel) h

end FeatureSpec

namespace Explicit

lemma zero_not_mem_of_parseRest {size : Nat} {read phonemes : List Phoneme} {bytes : Bytes}
    (h : parseRest size read bytes = .ok phonemes) : 0 ∉ bytes := by
  fun_induction parseRest size read bytes with
  | case1 => simp
  | case2 read b rest hblank ih =>
    rw [List.mem_cons, not_or]
    refine ⟨?_, ih h⟩
    rintro rfl
    exact absurd hblank (by decide)
  | case5 read rest inside tail hsplit p hgroup hblank ih =>
    obtain ⟨rfl, -⟩ := SourcePattern.eq_of_splitGroup? hsplit
    cases hspec : FeatureSpec.parse inside with
    | error e =>
      rw [group, hspec] at hgroup
      cases hgroup
    | ok spec =>
      have hopen : (0 : UInt8) ≠ openGroup := by decide
      have hclose : (0 : UInt8) ≠ Pattern.closeLookahead := by decide
      simp only [List.mem_cons, List.mem_append, not_or]
      exact ⟨hopen, FeatureSpec.zero_not_mem_of_parse hspec, hclose, ih h⟩
  | _ => cases h

end Explicit

namespace XSampa

lemma zero_mem_of_modifier? {bytes rest : Bytes} {m : Modifier}
    (h : modifier? bytes = some (m, rest)) (hzero : 0 ∈ bytes) : 0 ∈ rest := by
  unfold modifier? at h
  split at h <;> cases h <;> simpa using hzero

/-- Marks have no zero bytes. -/
lemma zero_mem_modify {bytes : Bytes} (p : Phoneme) (hzero : 0 ∈ bytes) : 0 ∈ (modify p bytes).2 := by
  fun_induction modify p bytes with
  | case1 => exact hzero
  | case2 p bytes m rest h ih => exact ih (zero_mem_of_modifier? h hzero)

lemma zero_mem_of_symbol? {bytes rest : Bytes} {s : Symbol} (h : symbol? bytes = some (s, rest))
    (hzero : 0 ∈ bytes) : 0 ∈ rest := by
  obtain ⟨s', hfind, heq⟩ := Option.map_eq_some_iff.mp h
  cases heq
  have hprefix : (Bytes.ofString s.text).isPrefixOf bytes = true := by
    simpa using List.find?_some hfind
  obtain ⟨tail, rfl⟩ := List.isPrefixOf_iff_prefix.mp hprefix
  have htexts : ∀ s ∈ symbols, 0 ∉ Bytes.ofString s.text := by decide +kernel
  rw [List.drop_left]
  exact (List.mem_append.mp hzero).resolve_left (htexts _ (List.mem_of_find?_eq_some hfind))

lemma zero_not_mem_of_parseRest {size : Nat} {stress : UInt64} {read phonemes : List Phoneme}
    {bytes : Bytes} (h : parseRest size stress read bytes = .ok phonemes) : 0 ∉ bytes := by
  fun_induction parseRest size stress read bytes with
  | case1 => simp
  | case2 stress read b rest hblank ih =>
    rw [List.mem_cons, not_or]
    refine ⟨?_, ih h⟩
    rintro rfl
    exact absurd hblank (by decide)
  | case3 stress read b rest hblank mark hmark ih =>
    rw [List.mem_cons, not_or]
    refine ⟨?_, ih h⟩
    rintro rfl
    have hnone : stress? 0 = none := by decide
    rw [hnone] at hmark
    cases hmark
  | case4 => cases h
  | case5 stress read b rest hblank hmark s behind hsymbol modified ih =>
    exact fun hzero => ih h (zero_mem_modify _ (zero_mem_of_symbol? hsymbol hzero))

end XSampa

/-- Text that an alphabet reads has no zero byte. -/
theorem Alphabet.zero_not_mem_of_parse {a : Alphabet} {text : Bytes} {phonemes : List Phoneme}
    (h : a.parse text = .ok phonemes) : 0 ∉ text := by
  cases a with
  | features => exact Explicit.zero_not_mem_of_parseRest h
  | xsampa => exact XSampa.zero_not_mem_of_parseRest h

end LetterToSound
