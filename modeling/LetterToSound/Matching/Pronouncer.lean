import LetterToSound.Matching.Rule
import LetterToSound.Phoneme.Alphabet

/-!
# Pronouncing text

The letter rules turn a text into phonemes from its start to its end; every byte has to be covered
by a rule. A right context may ask for the phoneme that comes next. The answer is found with the
rules that sound and have no right context themselves, so that an answer never needs another one;
and it depends only on the text ahead.
-/

namespace LetterToSound.Matching

/-- Why a text cannot be pronounced. -/
inductive MatchError where
  /-- No rule fits. -/
  | unableToPronounce (position : Nat)
  /-- A replacement, or the list of features of a lookahead, cannot be read. -/
  | invalidPhonemes (cause : PhonemeError)
  /-- A rule fits without covering any text. -/
  | stalled (position : Nat)
deriving DecidableEq, Repr

namespace MatchError

def message : MatchError → String
  | unableToPronounce position => s!"unable to pronounce the text at byte {position}"
  | invalidPhonemes cause => "invalid phonemes in rule replacement: " ++ cause.message
  | stalled position => s!"a rule covers no text at byte {position}"

end MatchError

/-- Pronounces text with the letter rules of a database, for a locale. -/
structure Pronouncer where
  alphabet : Alphabet
  setting : Setting
  rules : RuleTable
  /-- The rules that a lookahead tries. -/
  sounding : RuleTable

/-- A rule applied. -/
structure Pronounced where
  /-- The number of bytes that the rule covers. -/
  length : Nat
  phonemes : List Phoneme
deriving DecidableEq, Repr

namespace Pronouncer

/-- Whether a lookahead may try a rule. -/
def isSounding (rule : Bytes × Bytes) : Bool :=
  !rule.2.isEmpty && !StoredPattern.hasRightContext rule.1

def ofDatabase (db : Language.Database) (locale : String) : Except LoadError Pronouncer :=
  match Alphabet.named? db.alphabet with
  | none => .error (.unknownAlphabet db.alphabet)
  | some alphabet =>
    let rules := RuleTable.ofGroups db db.letterGroups
    .ok ⟨alphabet, Setting.ofDatabase db locale, rules,
      .ofFn fun b => (rules.get b).filter isSounding⟩

/-- The phonemes of a replacement. -/
def parse (m : Pronouncer) (replacement : Bytes) : Except MatchError (List Phoneme) :=
  match m.alphabet.parse replacement with
  | .ok phonemes => .ok phonemes
  | .error cause => .error (.invalidPhonemes cause)

/-- The first rule that a lookahead finds at a place. -/
def soundingMatch (m : Pronouncer) (p : Place) : Option Match :=
  match m.sounding.find (ε := Empty) m.setting none p with
  | .ok result => result

/-- The first phoneme that the text from a place on sounds like. Text that no rule covers has
none. -/
def firstPhoneme (m : Pronouncer) (p : Place) : Except MatchError (Option Phoneme) :=
  if _hp : p.ahead = [] then .ok none
  else
    match m.soundingMatch p with
    | none => .ok none
    | some found =>
      match m.parse found.replacement with
      | .error e => .error e
      | .ok (first :: _) => .ok (some first)
      | .ok [] =>
        if _hl : found.length = 0 then .error (.stalled p.position)
        else firstPhoneme m (p.advance found.length)
termination_by p.ahead.length
decreasing_by exact Place.length_ahead_advance_lt _hp _hl

/-- Whether a text ahead starts with a phoneme that has the features of a list. -/
def lookahead (m : Pronouncer) : Lookahead MatchError := fun ahead list =>
  match FeatureSpec.parse list with
  | .error cause => .error (.invalidPhonemes cause)
  | .ok spec => (m.firstPhoneme (Place.start ahead)).map fun first => first.any spec.holds

/-- Applies a rule at a place; none at the end of the text. -/
def next (m : Pronouncer) (p : Place) : Except MatchError (Option Pronounced) :=
  if p.ahead = [] then .ok none
  else
    match m.rules.find m.setting (some m.lookahead) p with
    | .error e => .error e
    | .ok none => .error (.unableToPronounce p.position)
    | .ok (some found) =>
      (m.parse found.replacement).map fun phonemes => some ⟨found.length, phonemes⟩

/-- Pronounces the text from a place on, its phonemes before that in reverse order. -/
def pronounceFrom (m : Pronouncer) (done : List Phoneme) (p : Place) :
    Except MatchError (List Phoneme) :=
  if _hp : p.ahead = [] then .ok done.reverse
  else
    match m.next p with
    | .error e => .error e
    | .ok none => .ok done.reverse
    | .ok (some step) =>
      if _hl : step.length = 0 then .error (.stalled p.position)
      else pronounceFrom m (step.phonemes.reverseAux done) (p.advance step.length)
termination_by p.ahead.length
decreasing_by exact Place.length_ahead_advance_lt _hp _hl

/-- Pronounces a text. -/
def pronounce (m : Pronouncer) (text : Bytes) : Except MatchError (List Phoneme) :=
  m.pronounceFrom [] (Place.start text)

end Pronouncer

end LetterToSound.Matching
