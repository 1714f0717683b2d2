import LetterToSound.Language.Condition
import LetterToSound.Text.Bytes

/-!
# Language definitions

A language source is a sequence of items. What they define together is the last locale and the last
alphabet, and everything else in the order in which the items say it.
-/

namespace LetterToSound.Language

/-- Sets or unsets a flag for a locale. Conditionals with the same name have the same id. -/
structure Conditional where
  name : Bytes
  id : UInt8
  polarity : Polarity
  locale : Bytes
deriving DecidableEq, Repr

/-- A letter class: strings that one capital letter stands for in patterns. -/
structure LetterClass where
  id : UInt8
  members : List Bytes
deriving DecidableEq, Repr

/-- A rule as it is stored. -/
structure Rule where
  /-- The first byte of the anchor. -/
  group : UInt8
  pattern : Bytes
  replacement : Bytes
deriving DecidableEq, Repr

/-- A word and its transcription. -/
structure Entry where
  word : Bytes
  phonemes : Bytes
deriving DecidableEq, Repr

structure Definition where
  locale : Bytes
  alphabet : Bytes
  conditionals : List Conditional
  classes : List LetterClass
  spellingRules : List Rule
  letterRules : List Rule
  dictionary : List Entry
deriving DecidableEq, Repr, Inhabited

/-- A complete part of a language source. -/
inductive Item where
  | locale (value : Bytes)
  | alphabet (name : Bytes)
  | conditional (c : Conditional)
  | letterClass (c : LetterClass)
  | spellingRules (rules : List Rule)
  | letterRules (rules : List Rule)
  | dictionary (entries : List Entry)
deriving DecidableEq, Repr

namespace Item

def locale? : Item → Option Bytes
  | locale value => some value
  | _ => none

def alphabet? : Item → Option Bytes
  | alphabet name => some name
  | _ => none

def conditional? : Item → Option Conditional
  | conditional c => some c
  | _ => none

def letterClass? : Item → Option LetterClass
  | letterClass c => some c
  | _ => none

/-- The spelling rules of an item. -/
def spellings : Item → List Rule
  | spellingRules rules => rules
  | _ => []

/-- The letter rules of an item. -/
def letters : Item → List Rule
  | letterRules rules => rules
  | _ => []

/-- The dictionary entries of an item. -/
def entries : Item → List Entry
  | dictionary entries => entries
  | _ => []

end Item

namespace Definition

/-- What items define together. -/
def ofItems (items : List Item) : Definition where
  locale := (items.filterMap Item.locale?).getLastD []
  alphabet := (items.filterMap Item.alphabet?).getLastD []
  conditionals := items.filterMap Item.conditional?
  classes := items.filterMap Item.letterClass?
  spellingRules := items.flatMap Item.spellings
  letterRules := items.flatMap Item.letters
  dictionary := items.flatMap Item.entries

end Definition

end LetterToSound.Language
