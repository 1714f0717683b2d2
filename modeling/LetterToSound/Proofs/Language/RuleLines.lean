import Mathlib
import LetterToSound.Proofs.Language.Accepted
import LetterToSound.Proofs.Language.Wording
import LetterToSound.Proofs.Pattern.Grammar

/-!
# Rule lines

A block of rules is made of lines: a pattern, its replacement, and perhaps a guard on one side of the
replacement. Nothing but the word itself tells a guard behind a replacement from the pattern of the
next line. So a line without a guard takes the next pattern for its own guard if the pattern starts as
guards do; lines are read as they are written just if this does not happen between any two of them.
-/

namespace LetterToSound

/-- Whether bytes start as a guard does. -/
def startsAsGuard (b : Bytes) : Bool := (b.head?.bind Polarity.ofByte?).isSome

namespace Language

open Source (expect endWord)

/-- A rule that has a guard. -/
def Rule.IsGuarded (r : Rule) : Prop := startsAsGuard r.pattern = true

/-- Words of which the first one, if there is one, is not taken for a guard. -/
def Quiet (ws : List Word) : Prop := ∀ w ∈ ws.head?, w.1 = .text → startsAsGuard w.2 = false

/-- The word that ends a block. -/
def endOfBlock : Word := (.text, endWord)

/-- Where a guard stands. -/
inductive Side where
  | before | behind
deriving DecidableEq

/-- A line of a block of rules. -/
structure RuleLine where
  pattern : Bytes
  ne_end : pattern ≠ endWord
  replacement : Bytes
  guard : Option (Side × Polarity × Bytes)

namespace RuleLine

/-- The words of a line behind its pattern. -/
def tail (kind : RuleKind) (line : RuleLine) : List Word :=
  match line.guard with
  | none => [(kind.replacement, line.replacement)]
  | some (.before, polarity, name) =>
    [(.text, polarity.byte :: name), (kind.replacement, line.replacement)]
  | some (.behind, polarity, name) =>
    [(kind.replacement, line.replacement), (.text, polarity.byte :: name)]

def words (kind : RuleKind) (line : RuleLine) : List Word :=
  (.text, line.pattern) :: line.tail kind

/-- The guard of a line as rules have it, if the scope knows it. -/
def guardIn? (scope : Scope) (line : RuleLine) : Option (Option Guard) :=
  match line.guard with
  | none => some none
  | some (_, polarity, name) => (scope.id? name).map fun id => some ⟨polarity, id⟩

/-- What a line makes by itself. -/
def Makes (scope : Scope) (kind : RuleKind) (line : RuleLine) (rule : Rule) : Prop :=
  ∃ guard stored, line.guardIn? scope = some guard ∧
    StoredPattern.ofSource line.pattern guard kind.lookahead = .ok stored ∧
    rule = ⟨stored.group, stored.bytes, line.replacement⟩ ∧
    (kind = .letter → ∃ a ∈ scope.alphabet, ∃ ps, a.parse line.replacement = .ok ps)

/-- Lines that are not read into one another: behind one without a guard there is none of which the
pattern starts as a guard does. -/
def Separated (lines : List RuleLine) : Prop :=
  lines.IsChain fun line next => line.guard.isSome ∨ startsAsGuard next.pattern = false

end RuleLine

variable {finish t : Token} {ts rest : List Token} {scope : Scope} {kind : RuleKind}

section Guard

lemma takeGuard_of_quiet (h : Quiet (ts.map Token.word)) : takeGuard scope ts = .ok (none, ts) := by
  cases ts with
  | nil => rfl
  | cons t ts =>
    have hquiet : t.kind = .text → startsAsGuard t.text = false := h t.word rfl
    rw [takeGuard]
    split
    · rename_i b name hkind htext
      have hnone : Polarity.ofByte? b = none := by
        simpa [startsAsGuard, htext] using hquiet hkind
      rw [hnone]
    · rfl

lemma takeGuard_of_word {polarity : Polarity} {name : Bytes} {id : UInt8}
    (hword : t.word = (.text, polarity.byte :: name)) (hid : scope.id? name = some id) :
    takeGuard scope (t :: ts) = .ok (some ⟨polarity, id⟩, ts) := by
  obtain ⟨hkind, htext⟩ := Prod.mk.inj hword
  simp [takeGuard, hkind, htext, hid]

/-- A word that starts as a guard does is taken for one, if for anything. -/
lemma takeGuard_ok_of_not_quiet {guard : Option Guard} (hloud : ¬Quiet (ts.map Token.word))
    (h : takeGuard scope ts = .ok (guard, rest)) :
    ∃ t polarity name id, ts = t :: rest ∧ t.word = (.text, Polarity.byte polarity :: name) ∧
      scope.id? name = some id ∧ guard = some ⟨polarity, id⟩ := by
  cases ts with
  | nil => exact absurd (by simp [Quiet]) hloud
  | cons t us =>
    simp only [Quiet, List.map_cons, List.head?_cons, Option.mem_some_iff, forall_eq',
      Bool.not_eq_false, Classical.not_imp] at hloud
    obtain ⟨hkind, hstarts⟩ := hloud
    obtain ⟨polarity, hpolarity⟩ := Option.isSome_iff_exists.mp hstarts
    obtain ⟨b, hb, hbyte⟩ := Option.bind_eq_some_iff.mp hpolarity
    obtain ⟨name, htext⟩ := List.head?_eq_some_iff.mp hb
    obtain rfl := Polarity.ofByte?_eq_some_iff.mp hbyte
    have hword : t.word = (.text, polarity.byte :: name) := Prod.ext hkind htext
    simp only [takeGuard, show t.kind = .text from hkind, show t.text = _ from htext,
      Polarity.ofByte?_byte] at h
    split at h
    · cases h
    · rename_i id hid
      cases h
      exact ⟨t, polarity, name, id, rfl, hword, hid, rfl⟩

end Guard

lemma RuleKind.replacement_ne_text (kind : RuleKind) : kind.replacement ≠ .text := by
  cases kind <;> decide

section Rule

variable {pattern r : Token} {guard : Option Guard} {rule : Rule}

lemma makeRule_iff : makeRule scope kind pattern r guard = .ok rule ↔
    ∃ stored, StoredPattern.ofSource pattern.text guard kind.lookahead = .ok stored ∧
      rule = ⟨stored.group, stored.bytes, r.text⟩ ∧
      (kind = .letter → ∃ a ∈ scope.alphabet, ∃ ps, a.parse r.text = .ok ps) := by
  have hsounds : (∃ ps, Source.phonemes scope.alphabet r = .ok ps) ↔
      ∃ a ∈ scope.alphabet, ∃ ps, a.parse r.text = .ok ps := by
    unfold Source.phonemes
    cases scope.alphabet with
    | none => simp
    | some a => cases hparse : a.parse r.text <;> simp [hparse]
  unfold makeRule
  cases StoredPattern.ofSource pattern.text guard kind.lookahead with
  | error cause => simp
  | ok stored =>
    cases kind with
    | spelling => simp [eq_comm]
    | letter =>
      rw [← hsounds]
      cases Source.phonemes scope.alphabet r <;> simp [Except.map, eq_comm]

lemma takeRule_of_ok {before : Option Guard} {first second : List Token}
    (hbefore : takeGuard scope ts = .ok (before, first))
    (hr : expect finish kind.replacement first = .ok (r, second))
    (hguard : takeGuardUnless scope before second = .ok (guard, rest))
    (hmade : makeRule scope kind pattern r guard = .ok rule) :
    takeRule finish scope kind pattern ts = .ok (rule, rest) :=
  (Outcome.bind_eq_of_ok hbefore _).trans <| (Outcome.bind_eq_of_ok hr _).trans <|
    (Outcome.bind_eq_of_ok hguard _).trans <| Outcome.bind_eq_of_ok hmade _

/-- What a rule is taken from is a line. -/
lemma exists_line_of_takeRule (hpattern : pattern.text ≠ endWord)
    (h : takeRule finish scope kind pattern ts = .ok (rule, rest)) :
    ∃ (line : RuleLine) (taken : List Token), line.pattern = pattern.text ∧ ts = taken ++ rest ∧
      taken.map Token.word = line.tail kind ∧ line.Makes scope kind rule ∧
      (line.guard.isSome ∨ Quiet (rest.map Token.word)) := by
  obtain ⟨⟨before, first⟩, hbefore, h⟩ := Outcome.exists_of_bind_eq_ok h
  obtain ⟨⟨r, second⟩, hreplacement, h⟩ := Outcome.exists_of_bind_eq_ok h
  obtain ⟨⟨guard, third⟩, hguard, h⟩ := Outcome.exists_of_bind_eq_ok h
  obtain ⟨made, hmade, h⟩ := Outcome.exists_of_bind_eq_ok h
  cases h
  obtain ⟨rfl, hr⟩ := expect_ok hreplacement
  obtain ⟨stored, hstored, hrule, hsounds⟩ := makeRule_iff.mp hmade
  have hword : r.word = (kind.replacement, r.text) := Prod.ext hr rfl
  by_cases hquiet : Quiet (ts.map Token.word)
  · rw [takeGuard_of_quiet hquiet] at hbefore
    cases hbefore
    by_cases hquiet' : Quiet (second.map Token.word)
    · rw [takeGuardUnless, takeGuard_of_quiet hquiet'] at hguard
      cases hguard
      exact ⟨⟨pattern.text, hpattern, r.text, none⟩, [r], rfl, rfl, by simp [RuleLine.tail, hword],
        ⟨none, stored, rfl, hstored, hrule, hsounds⟩, .inr hquiet'⟩
    · obtain ⟨t, polarity, name, id, rfl, ht, hid, rfl⟩ :=
        takeGuard_ok_of_not_quiet hquiet' hguard
      exact ⟨⟨pattern.text, hpattern, r.text, some (.behind, polarity, name)⟩, [r, t], rfl, rfl,
        by simp [RuleLine.tail, hword, ht],
        ⟨_, stored, by simp [RuleLine.guardIn?, hid], hstored, hrule, hsounds⟩, .inl rfl⟩
  · obtain ⟨t, polarity, name, id, rfl, ht, hid, rfl⟩ := takeGuard_ok_of_not_quiet hquiet hbefore
    cases hguard
    exact ⟨⟨pattern.text, hpattern, r.text, some (.before, polarity, name)⟩, [t, r], rfl, rfl,
      by simp [RuleLine.tail, hword, ht],
      ⟨_, stored, by simp [RuleLine.guardIn?, hid], hstored, hrule, hsounds⟩, .inl rfl⟩

lemma expect_replacement {text : Bytes} (ts : List Token) (h : r.word = (kind.replacement, text)) :
    expect finish kind.replacement (r :: ts) = .ok (r, ts) := if_pos (congrArg Prod.fst h)

lemma takeGuard_of_replacement {text : Bytes} (ts : List Token)
    (h : r.word = (kind.replacement, text)) : takeGuard scope (r :: ts) = .ok (none, r :: ts) := by
  refine takeGuard_of_quiet fun w hw htext => ?_
  cases hw
  rw [h] at htext
  exact absurd htext kind.replacement_ne_text

/-- From a line that makes a rule the rule is taken, unless a word behind it is taken for its guard. -/
lemma takeRule_of_line {line : RuleLine} {taken : List Token} (hline : line.pattern = pattern.text)
    (htaken : taken.map Token.word = line.tail kind) (hmakes : line.Makes scope kind rule)
    (hquiet : line.guard.isSome ∨ Quiet (rest.map Token.word)) :
    takeRule finish scope kind pattern (taken ++ rest) = .ok (rule, rest) := by
  obtain ⟨guard, stored, hknown, hstored, hrule, hsounds⟩ := hmakes
  have hmade {r : Token} (hr : r.word = (kind.replacement, line.replacement)) :
      makeRule scope kind pattern r guard = .ok rule := by
    have htext : r.text = line.replacement := congrArg Prod.snd hr
    rw [makeRule_iff, ← hline, htext]
    exact ⟨stored, hstored, hrule, hsounds⟩
  unfold RuleLine.guardIn? at hknown
  unfold RuleLine.tail at htaken
  split at htaken
  all_goals rename_i hguard; rw [hguard] at hknown hquiet
  · obtain ⟨r, rfl, hr⟩ := List.map_eq_singleton_iff.mp htaken
    cases hknown
    exact takeRule_of_ok (takeGuard_of_replacement rest hr) (expect_replacement rest hr)
      (takeGuard_of_quiet (by simpa using hquiet)) (hmade hr)
  · obtain ⟨t, us, rfl, ht, hus⟩ := List.map_eq_cons_iff.mp htaken
    obtain ⟨r, rfl, hr⟩ := List.map_eq_singleton_iff.mp hus
    obtain ⟨id, hid, rfl⟩ := Option.map_eq_some_iff.mp hknown
    exact takeRule_of_ok (takeGuard_of_word ht hid) (expect_replacement rest hr) rfl (hmade hr)
  · obtain ⟨r, us, rfl, hr, hus⟩ := List.map_eq_cons_iff.mp htaken
    obtain ⟨t, rfl, ht⟩ := List.map_eq_singleton_iff.mp hus
    obtain ⟨id, hid, rfl⟩ := Option.map_eq_some_iff.mp hknown
    exact takeRule_of_ok (takeGuard_of_replacement (t :: rest) hr) (expect_replacement (t :: rest) hr)
      (takeGuard_of_word ht hid) (hmade hr)

end Rule

section Block

variable {done rules : List Rule}

lemma readRules_end (done : List Rule) (h : t.word = endOfBlock) :
    readRules finish scope kind done (t :: ts) = .ok (done.reverse, ts) := by
  obtain ⟨hkind, htext⟩ := Prod.mk.inj h
  rw [readRules, if_neg (not_not.mpr hkind), if_pos htext]

lemma readRules_cons (done : List Rule) (hkind : t.kind = .text) (hend : t.text ≠ endWord) :
    readRules finish scope kind done (t :: ts) = takeRule finish scope kind t ts >>=
      fun (rule, rest) => readRules finish scope kind (rule :: done) rest := by
  rw [readRules, if_neg (not_not.mpr hkind), if_neg hend]
  split
  all_goals
    rename_i htake
    rw [htake]
    rfl

lemma quiet_endOfBlock (ws : List Word) : Quiet (endOfBlock :: ws) := by
  intro w hw _
  cases hw
  decide

/-- Lines in front of quiet words are quiet if the first line is. -/
lemma quiet_lines_iff {lines : List RuleLine} {ws : List Word} (h : Quiet ws) :
    Quiet (lines.flatMap (RuleLine.words kind) ++ ws) ↔
      ∀ next ∈ lines.head?, startsAsGuard next.pattern = false := by
  cases lines with
  | nil => simpa using h
  | cons next lines => simp [Quiet, RuleLine.words]

lemma quiet_words_iff (kind : RuleKind) (lines : List RuleLine) :
    Quiet (lines.flatMap (RuleLine.words kind)) ↔
      ∀ next ∈ lines.head?, startsAsGuard next.pattern = false := by
  have hnil : Quiet [] := by simp [Quiet]
  rw [← quiet_lines_iff hnil, List.append_nil]

lemma RuleLine.separated_cons_iff {line : RuleLine} {lines : List RuleLine} {ws : List Word}
    (h : Quiet ws) : RuleLine.Separated (line :: lines) ↔
      (line.guard.isSome ∨ Quiet (lines.flatMap (RuleLine.words kind) ++ ws)) ∧
        RuleLine.Separated lines := by
  rw [quiet_lines_iff h, Separated, List.isChain_cons]
  refine and_congr_left fun _ => ?_
  cases line.guard <;> simp

/-- A block of rules is read as lines that are not read into one another, up to the first word that
ends it. Each line makes its rule by itself. -/
theorem readRules_iff : readRules finish scope kind done ts = .ok (rules, rest) ↔
    ∃ (lines : List RuleLine) (new : List Rule) (taken : List Token),
      ts = taken ++ rest ∧
      taken.map Token.word = lines.flatMap (RuleLine.words kind) ++ [endOfBlock] ∧
      rules = done.reverse ++ new ∧ List.Forall₂ (RuleLine.Makes scope kind) lines new ∧
      RuleLine.Separated lines := by
  constructor
  · intro h
    fun_induction readRules finish scope kind done ts with
    | case3 done pattern ts hkind hend =>
      cases h
      have hword : pattern.word = endOfBlock := Prod.ext (not_not.mp hkind) hend
      exact ⟨[], [], [pattern], rfl, by simp [hword], by simp, .nil, .nil⟩
    | case5 done pattern ts hkind hend rule behind htake ih =>
      obtain ⟨lines, new, taken, rfl, htaken, rfl, hmakes, hseparated⟩ := ih h
      obtain ⟨line, first, hline, rfl, hfirst, hrule, hquiet⟩ := exists_line_of_takeRule hend htake
      have hpattern : pattern.word = (.text, line.pattern) := Prod.ext (not_not.mp hkind) hline.symm
      rw [List.map_append, htaken, List.append_assoc] at hquiet
      refine ⟨line :: lines, rule :: new, pattern :: (first ++ taken), by simp, ?_, by simp,
        .cons hrule hmakes, ?_⟩
      · simp [RuleLine.words, hpattern, hfirst, htaken]
      · exact (RuleLine.separated_cons_iff (quiet_endOfBlock _)).mpr ⟨hquiet, hseparated⟩
    | _ => cases h
  · rintro ⟨lines, new, taken, rfl, htaken, rfl, hmakes, hseparated⟩
    induction hmakes generalizing taken done with
    | nil =>
      obtain ⟨t, rfl, ht⟩ := List.map_eq_singleton_iff.mp htaken
      rw [List.singleton_append, readRules_end done ht, List.append_nil]
    | @cons line rule lines new hline _ ih =>
      obtain ⟨hquiet, hseparated⟩ :=
        (RuleLine.separated_cons_iff (quiet_endOfBlock (rest.map Token.word))).mp hseparated
      rw [List.flatMap_cons, List.append_assoc, RuleLine.words, List.cons_append] at htaken
      obtain ⟨pattern, us, rfl, hpattern, hus⟩ := List.map_eq_cons_iff.mp htaken
      obtain ⟨first, behind, rfl, hfirst, hbehind⟩ := List.map_eq_append_iff.mp hus
      obtain ⟨hkind, htext⟩ := Prod.mk.inj hpattern
      have hend : pattern.text ≠ endWord := htext ▸ line.ne_end
      have htake : takeRule finish scope kind pattern (first ++ (behind ++ rest)) =
          .ok (rule, behind ++ rest) := by
        refine takeRule_of_line htext.symm hfirst hline ?_
        rw [List.map_append, hbehind, List.append_assoc]
        exact hquiet
      rw [List.cons_append, List.append_assoc, readRules_cons done hkind hend,
        Outcome.bind_eq_of_ok htake]
      refine (ih behind hbehind hseparated).trans ?_
      simp

end Block

end Language

end LetterToSound
