import LetterToSound.Matching.Rule

/-!
# Respelling text

The spelling rules turn a text into another one. Bytes that no rule covers are copied.
-/

namespace LetterToSound.Matching

/-- Respells text with the spelling rules of a database, for a locale. -/
structure Respeller where
  setting : Setting
  rules : RuleTable
  /-- Whether there are any groups of rules. -/
  hasRules : Bool

/-- A place respelled. -/
structure Respelled where
  /-- The number of bytes that are replaced. -/
  length : Nat
  text : Bytes
deriving DecidableEq, Repr

namespace Respeller

def ofDatabase (db : Language.Database) (locale : String) : Respeller :=
  ⟨Setting.ofDatabase db locale, RuleTable.ofGroups db db.spellingGroups,
    !db.spellingGroups.isEmpty⟩

/-- The first rule that fits at a place. -/
def found (m : Respeller) (p : Place) : Option Match :=
  match m.rules.find (ε := Empty) m.setting none p with
  | .ok result => result

/-- Respells at a place; none at the end of the text. -/
def next (m : Respeller) (p : Place) : Option Respelled :=
  match p.ahead with
  | [] => none
  | b :: _ =>
    match m.found p with
    | some rule => some ⟨rule.length, rule.replacement⟩
    | none => some ⟨1, [b]⟩

/-- Respells from a place on, the text before that in reverse order. A rule that fits without
covering any text would be applied for ever, so then there is no result. -/
def respellFrom (m : Respeller) (done : Bytes) (p : Place) : Option Bytes :=
  if _hp : p.ahead = [] then some done.reverse
  else
    match m.next p with
    | none => some done.reverse
    | some step =>
      if _hl : step.length = 0 then none
      else respellFrom m (step.text.reverseAux done) (p.advance step.length)
termination_by p.ahead.length
decreasing_by exact Place.length_ahead_advance_lt _hp _hl

/-- Respells a text. Without rules it stays as it is. -/
def respell (m : Respeller) (text : Bytes) : Option Bytes :=
  if m.hasRules then m.respellFrom [] (Place.start text) else some text

end Respeller

end LetterToSound.Matching
