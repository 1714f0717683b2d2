import Mathlib
import LetterToSound.Proofs.Language.Kept
import LetterToSound.Proofs.Matching.PhonemeText

/-!
# What a lookahead hears

A lookahead asks for the first phoneme of the text ahead. It tries the rules without a right context
whose replacements are not left out. Such a rule may still sound like nothing, if its replacement is
written and holds no phoneme; the lookahead then goes on behind the text of the rule. Where no rule of
this kind comes first, the answer is that of the first rule that sounds.
-/

namespace LetterToSound.Matching

open LetterToSound.Language

section FirstFit

variable {ε : Type} {s : Setting} {ask : Option (Lookahead ε)} {p : Place} {rules : List Rule}
  {r r' : Rule} {n n' : Nat}

lemma FirstFit.mem (h : FirstFit s ask p rules (.ok (some (r, n)))) : r ∈ rules := by
  obtain ⟨before, after, rfl, -, -⟩ := h
  exact List.mem_append_right _ List.mem_cons_self

lemma FirstFit.fit (h : FirstFit s ask p rules (.ok (some (r, n)))) :
    fit s ask p r.pattern = .ok (some n) := by
  obtain ⟨-, -, -, -, hfit⟩ := h
  exact hfit

/-- The first rule that fits may be looked for among any rules that it belongs to. -/
lemma FirstFit.filter {keep : Rule → Bool} (h : FirstFit s ask p rules (.ok (some (r, n))))
    (hr : keep r = true) : FirstFit s ask p (rules.filter keep) (.ok (some (r, n))) := by
  obtain ⟨before, after, rfl, hbefore, hfit⟩ := h
  refine ⟨before.filter keep, after.filter keep, ?_, fun q hq => ?_, hfit⟩
  · rw [List.filter_append, List.filter_cons_of_pos hr]
  · exact hbefore q (List.mem_of_mem_filter hq)

/-- There is only one first rule that fits. -/
lemma FirstFit.unique (h : FirstFit s ask p rules (.ok (some (r, n))))
    (h' : FirstFit s ask p rules (.ok (some (r', n')))) : r = r' ∧ n = n' := by
  obtain ⟨before, after, rfl, hbefore, hfit⟩ := h
  obtain ⟨before', after', heq, hbefore', hfit'⟩ := h'
  induction before generalizing before' with
  | nil =>
    cases before' with
    | nil =>
      cases heq
      cases hfit.symm.trans hfit'
      exact ⟨rfl, rfl⟩
    | cons q before' =>
      cases heq
      cases hfit.symm.trans (hbefore' _ List.mem_cons_self)
  | cons q before ih =>
    obtain ⟨hq, hrest⟩ := List.forall_mem_cons.mp hbefore
    cases before' with
    | nil =>
      cases heq
      cases hq.symm.trans hfit'
    | cons q' before' =>
      obtain ⟨-, htail⟩ := List.cons.inj heq
      exact ih hrest before' htail (List.forall_mem_cons.mp hbefore').2

end FirstFit

namespace Pronouncer

variable {m : Pronouncer} {db : Database} {locale : String} {p : Place} {r : Rule} {n : Nat}

/-- The rules of the group of a byte, as they have been loaded. -/
def rulesAt (m : Pronouncer) (b : UInt8) : List Rule :=
  (m.rules.get b).map fun rule => ⟨b, rule.1, rule.2⟩

/-- Whether a rule has no right context and its replacement holds a phoneme. -/
def utters (m : Pronouncer) (r : Rule) : Bool :=
  !StoredPattern.hasRightContext r.pattern &&
    match m.parse r.replacement with
    | .ok (_ :: _) => true
    | _ => false

/-- The rules that a lookahead tries at a place. -/
def tried (m : Pronouncer) (p : Place) : List Rule :=
  match p.ahead with
  | [] => []
  | b :: _ => (m.rulesAt b).filter fun r => isSounding r.stored

lemma map_stored_rulesAt (m : Pronouncer) (b : UInt8) :
    (m.rulesAt b).map Rule.stored = m.rules.get b := by
  rw [rulesAt, List.map_map]
  exact List.map_id _

lemma mem_of_mem_rulesAt {b : UInt8} (h : r ∈ m.rulesAt b) : r.stored ∈ m.rules.get b := by
  rw [← map_stored_rulesAt]
  exact List.mem_map_of_mem h

lemma mem_tried {b : UInt8} {rest : Bytes} (hp : p.ahead = b :: rest) :
    r ∈ m.tried p ↔ r ∈ m.rulesAt b ∧ isSounding r.stored = true := by
  rw [tried, hp]
  exact List.mem_filter

lemma utters_eq_true_iff : m.utters r = true ↔ StoredPattern.hasRightContext r.pattern = false ∧
    ∃ first more, m.parse r.replacement = .ok (first :: more) := by
  unfold utters
  cases hparse : m.parse r.replacement with
  | error e => simp
  | ok phonemes => cases phonemes <;> simp

lemma parse_of_alphabet {replacement : Bytes} {phonemes : List Phoneme}
    (h : m.alphabet.parse replacement = .ok phonemes) : m.parse replacement = .ok phonemes := by
  rw [parse, h]

/-- No phonemes are written as nothing. -/
lemma parse_nil (m : Pronouncer) : m.parse [] = .ok [] := by
  refine parse_of_alphabet ?_
  cases m.alphabet <;> decide +kernel

/-- A lookahead tries all rules that sound. -/
lemma isSounding_of_utters (h : m.utters r = true) : isSounding r.stored = true := by
  obtain ⟨hcontext, first, more, hparse⟩ := utters_eq_true_iff.mp h
  have hne : r.replacement ≠ [] := by
    intro hnil
    rw [hnil, parse_nil] at hparse
    cases hparse
  simp [isSounding, Rule.stored, hcontext, hne]

/-- What a lookahead finds at a place is the first of the rules that it tries. -/
lemma exists_firstFit_tried (hm : ofDatabase db locale = .ok m) (p : Place) :
    ∃ result, FirstFit m.setting (some m.lookahead) p (m.tried p) (.ok result) ∧
      m.soundingMatch p = result.map applied := by
  have hfind := find_sounding_eq hm (some m.lookahead) p
  have hlist : m.sounding.find m.setting (some m.lookahead) p =
      firstMatch m.setting (some m.lookahead) p ((m.tried p).map Rule.stored) := by
    unfold RuleTable.find tried
    cases p.ahead with
    | nil => rfl
    | cons b rest =>
      dsimp only
      rw [(ofDatabase_ok hm).2.2, ByteTable.get_ofFn, ← map_stored_rulesAt, List.filter_map]
      rfl
  obtain ⟨result, hfirst, heq⟩ := exists_firstFit m.setting (some m.lookahead) p (m.tried p)
  rw [← hlist, hfind] at heq
  match result, hfirst, heq with
  | .ok result, hfirst, heq => exact ⟨result, hfirst, Except.ok.inj heq⟩

lemma soundingMatch_of_firstFit (hm : ofDatabase db locale = .ok m)
    (h : FirstFit m.setting (some m.lookahead) p (m.tried p) (.ok (some (r, n)))) :
    m.soundingMatch p = some ⟨n, r.replacement⟩ := by
  obtain ⟨result, hfirst, hfound⟩ := exists_firstFit_tried hm p
  rw [hfound]
  cases result with
  | none => cases h.fit.symm.trans (hfirst r h.mem)
  | some found =>
    obtain ⟨rfl, rfl⟩ := h.unique hfirst
    rfl

/-- What is heard of the text from a place on: nothing, where no rule fits that is tried; the first
phoneme of such a rule; or, if the rule has none, what is heard behind its text. -/
inductive Hears (m : Pronouncer) : Place → Option Phoneme → Prop
  | silence {p : Place} (h : FirstFit m.setting (some m.lookahead) p (m.tried p) (.ok none)) :
      Hears m p none
  | sound {p : Place} {r : Rule} {n : Nat} {first : Phoneme} {more : List Phoneme}
      (h : FirstFit m.setting (some m.lookahead) p (m.tried p) (.ok (some (r, n))))
      (hparse : m.parse r.replacement = .ok (first :: more)) : Hears m p (some first)
  | pass {p : Place} {r : Rule} {n : Nat} {heard : Option Phoneme}
      (h : FirstFit m.setting (some m.lookahead) p (m.tried p) (.ok (some (r, n))))
      (hparse : m.parse r.replacement = .ok []) (rest : Hears m (p.advance n) heard) :
      Hears m p heard

/-- From a place on, no two things are heard. -/
lemma Hears.unique {heard heard' : Option Phoneme} (h : m.Hears p heard) (h' : m.Hears p heard') :
    heard = heard' := by
  induction h with
  | silence hnone =>
    cases h' with
    | silence => rfl
    | sound hfirst => cases hfirst.fit.symm.trans (hnone _ hfirst.mem)
    | pass hfirst => cases hfirst.fit.symm.trans (hnone _ hfirst.mem)
  | sound hfirst hparse =>
    cases h' with
    | silence hnone => cases hfirst.fit.symm.trans (hnone _ hfirst.mem)
    | sound hfirst' hparse' =>
      obtain ⟨rfl, rfl⟩ := hfirst.unique hfirst'
      cases hparse.symm.trans hparse'
      rfl
    | pass hfirst' hparse' =>
      obtain ⟨rfl, rfl⟩ := hfirst.unique hfirst'
      cases hparse.symm.trans hparse'
  | pass hfirst hparse rest ih =>
    cases h' with
    | silence hnone => cases hfirst.fit.symm.trans (hnone _ hfirst.mem)
    | sound hfirst' hparse' =>
      obtain ⟨rfl, rfl⟩ := hfirst.unique hfirst'
      cases hparse.symm.trans hparse'
    | pass hfirst' hparse' rest' =>
      obtain ⟨rfl, rfl⟩ := hfirst.unique hfirst'
      exact ih rest'

lemma exists_firstFit_of_soundingMatch (hm : ofDatabase db locale = .ok m) {found : Match}
    (h : m.soundingMatch p = some found) : ∃ r,
      FirstFit m.setting (some m.lookahead) p (m.tried p) (.ok (some (r, found.length))) ∧
        r.replacement = found.replacement := by
  obtain ⟨result, hfirst, heq⟩ := exists_firstFit_tried hm p
  rw [h] at heq
  obtain ⟨⟨r, n⟩, rfl, rfl⟩ := Option.map_eq_some_iff.mp heq.symm
  exact ⟨r, hfirst, rfl⟩

lemma firstFit_of_soundingMatch_eq_none (hm : ofDatabase db locale = .ok m)
    (h : m.soundingMatch p = none) :
    FirstFit m.setting (some m.lookahead) p (m.tried p) (.ok none) := by
  obtain ⟨result, hfirst, heq⟩ := exists_firstFit_tried hm p
  obtain rfl := Option.map_eq_none_iff.mp (heq.symm.trans h)
  exact hfirst

/-- The first phoneme that a lookahead finds is what is heard. -/
lemma hears_of_firstPhoneme (hm : ofDatabase db locale = .ok m) {heard : Option Phoneme}
    (h : m.firstPhoneme p = .ok heard) : m.Hears p heard := by
  fun_induction firstPhoneme m p with
  | case1 p hp =>
    cases h
    refine .silence ?_
    rw [tried, hp]
    exact fun r hr => absurd hr List.not_mem_nil
  | case2 p hp hnone =>
    cases h
    exact .silence (firstFit_of_soundingMatch_eq_none hm hnone)
  | case3 => cases h
  | case4 p hp found hfound first more hparse =>
    cases h
    obtain ⟨r, hfirst, hreplacement⟩ := exists_firstFit_of_soundingMatch hm hfound
    exact .sound hfirst (hreplacement ▸ hparse)
  | case5 => cases h
  | case6 p hp found hfound hparse hlength ih =>
    obtain ⟨r, hfirst, hreplacement⟩ := exists_firstFit_of_soundingMatch hm hfound
    exact .pass hfirst (hreplacement ▸ hparse) (ih h)

/-- The first of the rules that sound is also tried, and so it decides if no silent rule comes before. -/
lemma filter_utters_tried {b : UInt8} {rest : Bytes} (hp : p.ahead = b :: rest) :
    (m.tried p).filter m.utters = (m.rulesAt b).filter m.utters := by
  rw [tried, hp]
  dsimp only
  rw [List.filter_filter]
  refine List.filter_congr fun r _ => ?_
  cases hutters : m.utters r with
  | false => rfl
  | true => rw [isSounding_of_utters hutters, Bool.and_self]

lemma firstPhoneme_of_silence (hp : p.ahead ≠ []) (hfound : m.soundingMatch p = none) :
    m.firstPhoneme p = .ok none := by
  rw [firstPhoneme, dif_neg hp, hfound]

lemma firstPhoneme_of_sound (hp : p.ahead ≠ []) {found : Match} {first : Phoneme}
    {more : List Phoneme} (hfound : m.soundingMatch p = some found)
    (hparse : m.parse found.replacement = .ok (first :: more)) :
    m.firstPhoneme p = .ok (some first) := by
  rw [firstPhoneme, dif_neg hp, hfound]
  dsimp only
  rw [hparse]

lemma lookahead_eq {list ahead : Bytes} {spec : FeatureSpec}
    (hspec : FeatureSpec.parse list = .ok spec) {heard : Option Phoneme}
    (h : m.firstPhoneme (Place.start ahead) = .ok heard) :
    m.lookahead ahead list = .ok (heard.any spec.holds) := by
  rw [lookahead, hspec]
  dsimp only
  rw [h]
  rfl

/-- No rule comes first at a place that a lookahead tries and that holds no phoneme. -/
def Unmuted (m : Pronouncer) (p : Place) : Prop :=
  ∀ r n, FirstFit m.setting (some m.lookahead) p (m.tried p) (.ok (some (r, n))) →
    m.parse r.replacement ≠ .ok []

/-- Where no silent rule comes first, what is found is the first phoneme of the first rule that
sounds, or nothing if there is none. -/
lemma firstPhoneme_of_unmuted (hm : ofDatabase db locale = .ok m)
    (hall : ∀ b, ∀ rule ∈ m.rules.get b, ∃ phonemes, m.alphabet.parse rule.2 = .ok phonemes)
    {b : UInt8} {rest : Bytes} (hp : p.ahead = b :: rest) (hunmuted : m.Unmuted p) :
    (m.firstPhoneme p = .ok none ∧ ∀ r ∈ (m.rulesAt b).filter m.utters,
      fit m.setting (some m.lookahead) p r.pattern = .ok none) ∨
    ∃ r n first more, m.firstPhoneme p = .ok (some first) ∧
      FirstFit m.setting (some m.lookahead) p ((m.rulesAt b).filter m.utters) (.ok (some (r, n))) ∧
      m.parse r.replacement = .ok (first :: more) := by
  have hne : p.ahead ≠ [] := by
    rw [hp]
    exact List.cons_ne_nil _ _
  obtain ⟨result, hfirst, hfound⟩ := exists_firstFit_tried hm p
  cases result with
  | none =>
    refine .inl ⟨firstPhoneme_of_silence hne hfound, fun r hr => hfirst r ?_⟩
    rw [← filter_utters_tried hp] at hr
    exact List.mem_of_mem_filter hr
  | some found =>
    obtain ⟨r, n⟩ := found
    obtain ⟨hr, hsounding⟩ := (mem_tried hp).mp hfirst.mem
    obtain ⟨phonemes, hread⟩ := hall b _ (mem_of_mem_rulesAt hr)
    have hparse : m.parse r.replacement = .ok phonemes := parse_of_alphabet hread
    cases phonemes with
    | nil => exact absurd hparse (hunmuted r n hfirst)
    | cons first more =>
      -- what is tried first sounds, so it also comes first among the rules that sound
      simp only [isSounding, Bool.and_eq_true, Bool.not_eq_true'] at hsounding
      have hutters : m.utters r = true :=
        utters_eq_true_iff.mpr ⟨hsounding.2, first, more, hparse⟩
      refine .inr ⟨r, n, first, more, firstPhoneme_of_sound hne hfound hparse, ?_, hparse⟩
      rw [← filter_utters_tried hp]
      exact hfirst.filter hutters

/-- Exactly one thing is heard ahead, and a lookahead answers by it, if scanning goes on and all
replacements can be read. -/
lemma exists_heard (hm : ofDatabase db locale = .ok m) (hscan : m.ScanProgresses) (hasks : m.Asks)
    (hall : ∀ b, ∀ rule ∈ m.rules.get b, ∃ phonemes, m.alphabet.parse rule.2 = .ok phonemes)
    {list ahead : Bytes} {spec : FeatureSpec} (hspec : FeatureSpec.parse list = .ok spec) :
    ∃ heard, (∀ other, m.Hears (Place.start ahead) other ↔ other = heard) ∧
      m.lookahead ahead list = .ok (heard.any spec.holds) := by
  cases hfirst : m.firstPhoneme (Place.start ahead) with
  | ok heard =>
    have hheard := hears_of_firstPhoneme hm hfirst
    refine ⟨heard, fun other => ⟨fun h => h.unique hheard, fun h => ?_⟩, lookahead_eq hspec hfirst⟩
    rwa [h]
  | error e =>
    obtain ⟨cause, rfl⟩ := hscan.exists_cause (fails_of_firstPhoneme hfirst)
    obtain ⟨b, rule, hrule, hillegible⟩ := illegible_of_firstPhoneme hasks hfirst
    obtain ⟨phonemes, hok⟩ := hall b rule hrule
    cases hok.symm.trans hillegible

/-- Where no silent rule comes first, a lookahead answers by the first rule that sounds. -/
lemma lookahead_of_unmuted (hm : ofDatabase db locale = .ok m)
    (hall : ∀ b, ∀ rule ∈ m.rules.get b, ∃ phonemes, m.alphabet.parse rule.2 = .ok phonemes)
    {list ahead rest : Bytes} {b : UInt8} {spec : FeatureSpec}
    (hspec : FeatureSpec.parse list = .ok spec) (hahead : ahead = b :: rest)
    (hunmuted : m.Unmuted (Place.start ahead)) :
    (∃ answer, m.lookahead ahead list = .ok answer) ∧
      (m.lookahead ahead list = .ok true ↔
        ∃ r n first more, FirstFit m.setting (some m.lookahead) (Place.start ahead)
            ((m.rulesAt b).filter m.utters) (.ok (some (r, n))) ∧
          m.parse r.replacement = .ok (first :: more) ∧ spec.holds first = true) := by
  rcases firstPhoneme_of_unmuted hm hall (p := Place.start ahead) hahead hunmuted with
    ⟨hfirst, hnone⟩ | ⟨r, n, first, more, hfirst, hfit, hphonemes⟩
  · rw [lookahead_eq hspec hfirst]
    refine ⟨⟨_, rfl⟩, iff_of_false (by simp) ?_⟩
    rintro ⟨r, n, first, more, hfit, -⟩
    cases hfit.fit.symm.trans (hnone r hfit.mem)
  · rw [lookahead_eq hspec hfirst]
    refine ⟨⟨_, rfl⟩, fun hholds => ?_, ?_⟩
    · exact ⟨r, n, first, more, hfit, hphonemes, Except.ok.inj hholds⟩
    · rintro ⟨r', n', first', more', hfit', hphonemes', hholds⟩
      obtain ⟨rfl, rfl⟩ := hfit.unique hfit'
      cases hphonemes.symm.trans hphonemes'
      exact congrArg _ hholds

end Pronouncer

section Compiled

variable {source : Bytes} {d : Definition} {data : Array UInt8} {db : Database} {locale : String}
  {m : Pronouncer}

/-- The rules of a group that have been loaded are those of the source, as far as their strings are
stored. -/
lemma map_stored_rulesAt_of_keeps (hdb : db.Keeps d.cut)
    (hm : Pronouncer.ofDatabase db locale = .ok m) (b : UInt8) :
    (m.rulesAt b).map Rule.stored =
      readable ((d.cut.letterRules.filter (·.group = b)).map Rule.stored) := by
  rw [Pronouncer.map_stored_rulesAt, (Pronouncer.ofDatabase_ok hm).2.1]
  exact get_ofGroups_of_ids readable rfl hdb.letterGroups.ids hdb.letterGroups.rules b

lemma rulesAt_of_groups (hdb : db.Groups db.letterGroups d.letterRules)
    (hm : Pronouncer.ofDatabase db locale = .ok m) (b : UInt8) :
    m.rulesAt b = d.letterRules.filter (·.group = b) := by
  rw [Pronouncer.rulesAt, (Pronouncer.ofDatabase_ok hm).2.1, get_ofGroups hdb, List.map_map]
  refine (List.map_congr_left fun r hr => ?_).trans (List.map_id _)
  have hgroup : r.group = b := by simpa using List.of_mem_filter hr
  rw [← hgroup]
  rfl

/-- A lookahead hears what comes first of the text ahead, whatever rules there are. If no rule comes
first that it tries and that holds no phoneme, then it is the first phoneme of the first rule without a
right context that holds one. -/
theorem lookahead_of_compile (hparse : Language.parse source = .ok d)
    (hcompile : Language.compile source = .ok data) (hload : Database.load data = .ok db)
    (hm : Pronouncer.ofDatabase db locale = .ok m)
    (hall : ∀ t ∈ db.letterGroups, ∀ rule ∈ db.rules t,
      ∃ phonemes, m.alphabet.parse rule.2 = .ok phonemes)
    {list : Bytes} {spec : FeatureSpec} (hspec : FeatureSpec.parse list = .ok spec) (text : Bytes)
    {position : Nat} (hposition : position < text.length) :
    (m.rulesAt text[position]).map Rule.stored =
        readable ((d.cut.letterRules.filter (·.group = text[position])).map Rule.stored) ∧
    (0 ∉ source →
      m.rulesAt text[position] = d.letterRules.filter (·.group = text[position]) ∧
      ∃ heard, (∀ other, m.Hears (Place.start (text.drop position)) other ↔ other = heard) ∧
        m.lookahead (text.drop position) list = .ok (heard.any spec.holds)) ∧
    (m.Unmuted (Place.start (text.drop position)) →
      (∃ answer, m.lookahead (text.drop position) list = .ok answer) ∧
      (m.lookahead (text.drop position) list = .ok true ↔
        ∃ r n first more, FirstFit m.setting (some m.lookahead) (Place.start (text.drop position))
            ((m.rulesAt text[position]).filter m.utters) (.ok (some (r, n))) ∧
          m.parse r.replacement = .ok (first :: more) ∧ spec.holds first = true)) := by
  have hdb := Definition.keeps_of_load hparse hcompile hload
  have hlegible : ∀ b, ∀ rule ∈ m.rules.get b, ∃ phonemes, m.alphabet.parse rule.2 = .ok phonemes := by
    intro b rule hrule
    rw [(Pronouncer.ofDatabase_ok hm).2.1] at hrule
    obtain ⟨t, ht, hrule⟩ := exists_group_of_mem hrule
    exact hall t ht rule hrule
  refine ⟨map_stored_rulesAt_of_keeps hdb hm _, fun hzero => ?_, fun hunmuted => ?_⟩
  · have hgroups := (Definition.represents_of_compile hzero hparse hcompile hload).letterGroups
    have hscan := Pronouncer.scanProgresses (grouped_of_parse hparse .letter) hgroups hm
    exact ⟨rulesAt_of_groups hgroups hm _,
      Pronouncer.exists_heard hm hscan (asks_of_keeps hdb hparse hm) hlegible hspec⟩
  · exact Pronouncer.lookahead_of_unmuted hm hlegible hspec (List.drop_eq_getElem_cons hposition)
      hunmuted

/-- A source with a rule for `b` that holds no phoneme, although its replacement is written. -/
def mutedSource : Bytes := Bytes.ofString
  ".phonemeset\txsampa\nrules\ns({vcd})\t/z/\ns\t/s/\nb\t/ /\nb\t/b/\nt\t/t/\nend\n"

def mutedDefinition : Definition where
  locale := []
  alphabet := Bytes.ofString "xsampa"
  conditionals := []
  classes := []
  spellingRules := []
  letterRules := [⟨0x73, Bytes.ofString "s({vcd})", [0x7A]⟩, ⟨0x73, [0x73], [0x73]⟩,
    ⟨0x62, [0x62], [0x20]⟩, ⟨0x62, [0x62], [0x62]⟩, ⟨0x74, [0x74], [0x74]⟩]
  dictionary := []

lemma parse_mutedSource : Language.parse mutedSource = .ok mutedDefinition := by decide +kernel

/-- The source can be pronounced with, and all of its replacements can be read. -/
lemma exists_pronouncer_of_mutedSource : ∃ data db m, Language.compile mutedSource = .ok data ∧
    Database.load data = .ok db ∧ Pronouncer.ofDatabase db "" = .ok m ∧
    m.alphabet = .xsampa ∧ (∀ b, m.rulesAt b = mutedDefinition.letterRules.filter (·.group = b)) ∧
    ∀ t ∈ db.letterGroups, ∀ rule ∈ db.rules t,
      ∃ phonemes, m.alphabet.parse rule.2 = .ok phonemes := by
  obtain ⟨data, hwrite⟩ := Definition.exists_write (d := mutedDefinition)
    (by decide +kernel) (by decide +kernel) (by decide +kernel)
  have hreadable : mutedDefinition.cut.Readable :=
    ⟨⟨"", by decide⟩, ⟨"xsampa", by decide +kernel⟩, fun c hc => by cases hc⟩
  obtain ⟨db, m, hcompile, hload, hm, halphabet⟩ := exists_pronouncer_of_write
    parse_mutedSource hwrite hreadable (show _ = some Alphabet.xsampa by decide +kernel) ""
  have hgroups := (Definition.represents_of_compile (by decide +kernel) parse_mutedSource hcompile
    hload).letterGroups
  refine ⟨data, db, m, hcompile, hload, hm, halphabet, rulesAt_of_groups hgroups hm, ?_⟩
  intro t ht rule hrule
  rw [hgroups.rules t ht] at hrule
  obtain ⟨r, hr, rfl⟩ := List.mem_map.mp hrule
  have hall : ∀ r ∈ mutedDefinition.letterRules,
      (Alphabet.xsampa.parse r.replacement).toBool = true := by decide +kernel
  have hread := hall r (List.mem_of_mem_filter hr)
  rw [halphabet]
  cases hparse : Alphabet.xsampa.parse r.replacement with
  | ok phonemes => exact ⟨phonemes, hparse⟩
  | error e =>
    rw [hparse] at hread
    cases hread

theorem lookahead_of_compile_muted : ∃ data db m, Language.compile mutedSource = .ok data ∧
    Database.load data = .ok db ∧ Pronouncer.ofDatabase db "" = .ok m ∧
    m.Unmuted (Place.start [0x74]) ∧
    m.lookahead [0x74] (Bytes.ofString "vls") = .ok true := by
  obtain ⟨data, db, m, hcompile, hload, hm, halphabet, hrules, hall⟩ :=
    exists_pronouncer_of_mutedSource
  have hspec : FeatureSpec.parse (Bytes.ofString "vls") = .ok ⟨16, 48⟩ := by decide +kernel
  have hread : Alphabet.xsampa.parse [0x74] = .ok [⟨0x1411⟩] := by decide +kernel
  have hparse : m.parse [0x74] = .ok [⟨0x1411⟩] := Pronouncer.parse_of_alphabet (by rwa [halphabet])
  have hrule : m.rulesAt 0x74 = [⟨0x74, [0x74], [0x74]⟩] := (hrules _).trans (by decide)
  have hunmuted : m.Unmuted (Place.start [0x74]) := by
    intro r n hfirst hsilent
    obtain ⟨hr, -⟩ := (Pronouncer.mem_tried rfl).mp hfirst.mem
    rw [hrule, List.mem_singleton] at hr
    rw [hr, hparse] at hsilent
    cases hsilent
  have hutters : m.utters ⟨0x74, [0x74], [0x74]⟩ = true :=
    Pronouncer.utters_eq_true_iff.mpr ⟨by decide, _, _, hparse⟩
  have h := lookahead_of_compile parse_mutedSource hcompile hload hm hall hspec [0x73, 0x74]
    (show 1 < _ by decide)
  refine ⟨data, db, m, hcompile, hload, hm, hunmuted, (h.2.2 hunmuted).2.mpr ?_⟩
  refine ⟨⟨0x74, [0x74], [0x74]⟩, 1, _, _, ⟨[], [], ?_, by simp, fit_literal (by decide) rfl⟩, hparse,
    by decide⟩
  change (m.rulesAt 0x74).filter m.utters = _
  rw [hrule, List.filter_cons_of_pos hutters, List.filter_nil]
  rfl

/-- A rule with a written replacement that holds no phoneme hides the rules behind it from a lookahead:
the next rule for the byte fits and is voiced, and still nothing voiced is heard. -/
theorem lookahead_mutedSource : ∃ data db m, Language.compile mutedSource = .ok data ∧
    Database.load data = .ok db ∧ Pronouncer.ofDatabase db "" = .ok m ∧
    (∀ t ∈ db.letterGroups, ∀ rule ∈ db.rules t,
      ∃ phonemes, m.alphabet.parse rule.2 = .ok phonemes) ∧
    FeatureSpec.parse (Bytes.ofString "vcd") = .ok ⟨32, 48⟩ ∧
    (m.rulesAt 0x62).filter m.utters = [⟨0x62, [0x62], [0x62]⟩] ∧
    fit m.setting (some m.lookahead) (Place.start [0x62]) [0x62] = .ok (some 1) ∧
    m.parse [0x62] = .ok [⟨0x1121⟩] ∧ FeatureSpec.holds ⟨32, 48⟩ ⟨0x1121⟩ = true ∧
    m.lookahead [0x62] (Bytes.ofString "vcd") = .ok false := by
  obtain ⟨data, db, m, hcompile, hload, hm, halphabet, hrules, hall⟩ :=
    exists_pronouncer_of_mutedSource
  have hspec : FeatureSpec.parse (Bytes.ofString "vcd") = .ok ⟨32, 48⟩ := by decide +kernel
  have hread : Alphabet.xsampa.parse [0x62] = .ok [⟨0x1121⟩] := by decide +kernel
  have hblank : Alphabet.xsampa.parse [0x20] = .ok [] := by decide +kernel
  have hparse : m.parse [0x62] = .ok [⟨0x1121⟩] := Pronouncer.parse_of_alphabet (by rwa [halphabet])
  have hsilent : m.parse [0x20] = .ok [] := Pronouncer.parse_of_alphabet (by rwa [halphabet])
  have hrule : m.rulesAt 0x62 = [⟨0x62, [0x62], [0x20]⟩, ⟨0x62, [0x62], [0x62]⟩] :=
    (hrules _).trans (by decide)
  have hfit : fit m.setting (some m.lookahead) (Place.start [0x62]) [0x62] = .ok (some 1) :=
    fit_literal (by decide) rfl
  have hfilter : (m.rulesAt 0x62).filter m.utters = [⟨0x62, [0x62], [0x62]⟩] := by
    have hcontext : StoredPattern.hasRightContext [0x62] = false := by decide
    rw [hrule]
    simp [Pronouncer.utters, hparse, hsilent, hcontext]
  have htried : m.tried (Place.start [0x62]) = m.rulesAt 0x62 := by
    rw [hrule]
    change (m.rulesAt 0x62).filter _ = _
    rw [hrule]
    decide
  have hfound : m.soundingMatch (Place.start [0x62]) = some ⟨1, [0x20]⟩ :=
    Pronouncer.soundingMatch_of_firstFit hm (r := ⟨0x62, [0x62], [0x20]⟩)
      ⟨[], _, htried.trans hrule, by simp, hfit⟩
  have hfirst : m.firstPhoneme (Place.start [0x62]) = .ok none := by
    rw [Pronouncer.firstPhoneme, dif_neg (by simp [Place.start]), hfound]
    dsimp only
    rw [hsilent]
    dsimp only
    have hend : ((Place.start [0x62]).advance 1).ahead = [] := rfl
    rw [dif_neg Nat.one_ne_zero, Pronouncer.firstPhoneme, dif_pos hend]
  exact ⟨data, db, m, hcompile, hload, hm, hall, hspec, hfilter, hfit, hparse, by decide,
    Pronouncer.lookahead_eq hspec hfirst⟩

end Compiled

end LetterToSound.Matching
