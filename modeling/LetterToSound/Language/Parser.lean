import LetterToSound.Language.Dictionary
import LetterToSound.Pattern.Stored
import LetterToSound.Source.Lexer

/-!
# Reading language sources

The tokens of a language source are read item by item. What an item may say depends on the items
before it only through the scope: the alphabet in force, the conditionals by name and the classes
that are taken. Every reader hands on the tokens that it leaves, and it leaves fewer than it was
given, so reading ends.
-/

namespace LetterToSound.Language

open Source (endWord expect length_expect_lt)

/-- What the items read so far mean for those to come. -/
structure Scope where
  alphabet : Option Alphabet
  /-- The names of conditionals in the order of their first use; a name's id is its number in this
  list, counted from one. -/
  names : List Bytes
  /-- The classes that are defined. -/
  classes : List UInt8
deriving DecidableEq, Repr

namespace Scope

def empty : Scope := ⟨none, [], []⟩

/-- The scope behind an item. -/
def after (scope : Scope) : Item → Scope
  | .alphabet name => { scope with alphabet := Alphabet.named? (Utf8.lossy name) }
  | .conditional c =>
    if scope.names.contains c.name then scope else { scope with names := scope.names ++ [c.name] }
  | .letterClass c => { scope with classes := scope.classes ++ [c.id] }
  | _ => scope

/-- The id of a conditional. -/
def id? (scope : Scope) (name : Bytes) : Option UInt8 :=
  (scope.names.idxOf? name).map fun i => UInt8.ofNat (i + 1)

/-- The greatest id of a conditional. -/
def maxId : Nat := 254

/-- The id that a conditional of this name has or gets. -/
def idFor? (scope : Scope) (name : Bytes) : Option UInt8 :=
  match scope.id? name with
  | some id => some id
  | none =>
    if scope.names.length < maxId then some (UInt8.ofNat (scope.names.length + 1)) else none

/-- Checks the transcription of a dictionary entry against the alphabet in force, if there is one.
A fault is reported at the name of the dictionary's format. -/
def checkEntry (scope : Scope) (format : Token) (e : Entry) : Except CompileError Unit :=
  match scope.alphabet with
  | none => .ok ()
  | some a =>
    match a.parse e.phonemes with
    | .error cause => .error ⟨.invalidTranscription e.word cause, format.position⟩
    | .ok _ => .ok ()

end Scope

/-- Takes a guard, if a word that looks like one comes next. -/
def takeGuard (scope : Scope) : List Token → Except CompileError (Option Guard × List Token)
  | [] => .ok (none, [])
  | t :: rest =>
    match t.kind, t.text with
    | .text, b :: name =>
      match Polarity.ofByte? b with
      | none => .ok (none, t :: rest)
      | some polarity =>
        match scope.id? name with
        | none => .error ⟨.unknownConditional name, t.position⟩
        | some id => .ok (some ⟨polarity, id⟩, rest)
    | _, _ => .ok (none, t :: rest)

theorem length_takeGuard_le {scope : Scope} {guard : Option Guard} {tokens rest : List Token}
    (h : takeGuard scope tokens = .ok (guard, rest)) : rest.length ≤ tokens.length := by
  unfold takeGuard at h
  split at h
  · cases h; simp
  · split at h
    · split at h
      · cases h; simp
      · split at h <;> cases h
        simp
    · cases h; simp

/-- Takes a guard, if none has been taken before. -/
def takeGuardUnless (scope : Scope) (before : Option Guard) (tokens : List Token) :
    Except CompileError (Option Guard × List Token) :=
  match before with
  | some guard => .ok (some guard, tokens)
  | none => takeGuard scope tokens

theorem length_takeGuardUnless_le {scope : Scope} {before guard : Option Guard}
    {tokens rest : List Token} (h : takeGuardUnless scope before tokens = .ok (guard, rest)) :
    rest.length ≤ tokens.length := by
  cases before with
  | some g => cases h; exact Nat.le_refl _
  | none => exact length_takeGuard_le h

/-- The two kinds of rules. -/
inductive RuleKind where
  /-- Text to text. -/
  | spelling
  /-- Text to phonemes. -/
  | letter
deriving DecidableEq, Repr

namespace RuleKind

def block : RuleKind → Block
  | spelling => .spelling
  | letter => .rules

/-- How the replacement of a rule is written. -/
def replacement : RuleKind → TokenKind
  | spelling => .quoted
  | letter => .phonemes

/-- Only letter rules may ask for the phoneme that comes next. -/
def lookahead : RuleKind → Bool
  | spelling => false
  | letter => true

end RuleKind

/-- Makes a rule of its tokens. -/
def makeRule (scope : Scope) (kind : RuleKind) (pattern replacement : Token)
    (guard : Option Guard) : Except CompileError Rule :=
  match StoredPattern.ofSource pattern.text guard kind.lookahead with
  | .error cause => .error ⟨.malformedPattern cause, pattern.position⟩
  | .ok stored =>
    let rule : Rule := ⟨stored.group, stored.bytes, replacement.text⟩
    match kind with
    | .spelling => .ok rule
    | .letter => (Source.phonemes scope.alphabet replacement).map fun _ => rule

/-- Takes a rule behind its pattern. A guard may stand before or behind the replacement; behind it a
second one would start the next rule. -/
def takeRule (finish : Token) (scope : Scope) (kind : RuleKind) (pattern : Token)
    (tokens : List Token) : Except CompileError (Rule × List Token) := do
  let (before, tokens) ← takeGuard scope tokens
  let (replacement, tokens) ← expect finish kind.replacement tokens
  let (guard, tokens) ← takeGuardUnless scope before tokens
  let rule ← makeRule scope kind pattern replacement guard
  return (rule, tokens)

theorem length_takeRule_lt {finish pattern : Token} {scope : Scope} {kind : RuleKind}
    {tokens rest : List Token} {rule : Rule}
    (h : takeRule finish scope kind pattern tokens = .ok (rule, rest)) :
    rest.length < tokens.length := by
  obtain ⟨⟨before, first⟩, hbefore, h⟩ := Outcome.exists_of_bind_eq_ok h
  obtain ⟨⟨replacement, second⟩, hreplacement, h⟩ := Outcome.exists_of_bind_eq_ok h
  obtain ⟨⟨guard, third⟩, hguard, h⟩ := Outcome.exists_of_bind_eq_ok h
  obtain ⟨made, _, h⟩ := Outcome.exists_of_bind_eq_ok h
  cases h
  have h1 := length_takeGuard_le hbefore
  have h2 := length_expect_lt hreplacement
  have h3 := length_takeGuardUnless_le hguard
  omega

/-- Reads rules up to the end of their block, those read before in reverse order. -/
def readRules (finish : Token) (scope : Scope) (kind : RuleKind) (done : List Rule) :
    List Token → Except CompileError (List Rule × List Token)
  | [] => .error ⟨.missingEnd kind.block, finish.position⟩
  | pattern :: tokens =>
    if pattern.kind ≠ .text then .error ⟨.unexpected pattern, pattern.position⟩
    else if pattern.text = endWord then .ok (done.reverse, tokens)
    else match _h : takeRule finish scope kind pattern tokens with
      | .error e => .error e
      | .ok (rule, rest) => readRules finish scope kind (rule :: done) rest
termination_by tokens => tokens.length
decreasing_by exact Nat.lt_succ_of_lt (length_takeRule_lt _h)

theorem length_readRules_le {finish : Token} {scope : Scope} {kind : RuleKind}
    {done rules : List Rule} {tokens rest : List Token}
    (h : readRules finish scope kind done tokens = .ok (rules, rest)) :
    rest.length ≤ tokens.length := by
  fun_induction readRules finish scope kind done tokens with
  | case3 => cases h; simp
  | case5 done pattern tokens hkind hend rule behind htake ih =>
    have h1 := ih h
    have h2 := length_takeRule_lt htake
    simp only [List.length_cons]
    omega
  | _ => cases h

/-- Reads the members of a class up to the end of its block, those read before in reverse order. -/
def readMembers (finish : Token) (done : List Bytes) :
    List Token → Except CompileError (List Bytes × List Token)
  | [] => .error ⟨.missingEnd .classdef, finish.position⟩
  | t :: tokens =>
    if t.kind = .text ∧ t.text = endWord then .ok (done.reverse, tokens)
    else if (t.kind = .text ∨ t.kind = .quoted) ∧ t.text ≠ [] then
      readMembers finish (t.text :: done) tokens
    else .error ⟨.unexpected t, t.position⟩

theorem length_readMembers_le {finish : Token} {done members : List Bytes}
    {tokens rest : List Token} (h : readMembers finish done tokens = .ok (members, rest)) :
    rest.length ≤ tokens.length := by
  fun_induction readMembers finish done tokens with
  | case2 => cases h; simp
  | case3 done t tokens hend hmember ih =>
    have := ih h
    simp only [List.length_cons]
    omega
  | _ => cases h

/-- The id of a class: a capital letter that is not taken. -/
def classId (scope : Scope) (name : Token) : Except CompileError UInt8 :=
  match name.text with
  | [id] =>
    if !Pattern.isClassId id then .error ⟨.noClassId name.text, name.position⟩
    else if scope.classes.contains id then .error ⟨.repeatedClass id, name.position⟩
    else .ok id
  | _ => .error ⟨.noClassId name.text, name.position⟩

/-- Takes a class behind its keyword. -/
def takeClass (finish : Token) (scope : Scope) (tokens : List Token) :
    Except CompileError (Item × List Token) := do
  let (name, tokens) ← expect finish .text tokens
  let id ← classId scope name
  let (members, tokens) ← readMembers finish [] tokens
  return (.letterClass ⟨id, members⟩, tokens)

/-- Polarity and name of a conditional. -/
def flagOf (t : Token) : Except CompileError (Polarity × Bytes) :=
  match t.text with
  | b :: c :: name =>
    match Polarity.ofByte? b with
    | some polarity => .ok (polarity, c :: name)
    | none => .error ⟨.malformedConditional, t.position⟩
  | _ => .error ⟨.malformedConditional, t.position⟩

/-- The locale of a conditional's predicate. -/
def predicateOf (t : Token) : Except CompileError Bytes :=
  match (Bytes.ofString "locale=").isPrefixOf? t.text with
  | some (b :: value) => .ok (b :: value)
  | _ => .error ⟨.malformedConditional, t.position⟩

/-- Checks the word between flag and predicate. -/
def checkIf (t : Token) : Except CompileError Unit :=
  if t.text = Bytes.ofString "if" then .ok () else .error ⟨.malformedConditional, t.position⟩

/-- Makes a conditional of its parts. -/
def makeConditional (scope : Scope) (keyword : Token) (polarity : Polarity) (name locale : Bytes) :
    Except CompileError Item :=
  match scope.idFor? name with
  | none => .error ⟨.tooManyConditionals, keyword.position⟩
  | some id => .ok (.conditional ⟨name, id, polarity, locale⟩)

/-- Takes a conditional behind its keyword. -/
def takeConditional (finish : Token) (scope : Scope) (keyword : Token) (tokens : List Token) :
    Except CompileError (Item × List Token) := do
  let (flag, tokens) ← expect finish .text tokens
  let (polarity, name) ← flagOf flag
  let (word, tokens) ← expect finish .text tokens
  checkIf word
  let (predicate, tokens) ← expect finish .text tokens
  let locale ← predicateOf predicate
  let item ← makeConditional scope keyword polarity name locale
  return (item, tokens)

/-- The format of a dictionary. -/
def formatOf (t : Token) : Except CompileError DictionaryFormat :=
  match DictionaryFormat.named? t.text with
  | none => .error ⟨.unsupportedDictionary t.text, t.position⟩
  | some format => .ok format

/-- Reads a whole dictionary block. -/
def readDictionary (finish : Token) (scope : Scope) (format : Token) (tokens : List Token) :
    Except CompileError (Item × List Token) :=
  match readEntries finish (scope.checkEntry format) [] tokens with
  | (_, .error e) => .error e
  | (entries, .ok rest) => .ok (.dictionary entries, rest)

/-- Takes a dictionary behind its keyword. -/
def takeDictionary (finish : Token) (scope : Scope) (tokens : List Token) :
    Except CompileError (Item × List Token) := do
  let (format, tokens) ← expect finish .text tokens
  discard (formatOf format)
  readDictionary finish scope format tokens

/-- What a directive says. -/
def directiveItem (name body : Token) : Except CompileError Item :=
  if name.text = Bytes.ofString ".locale" then .ok (.locale body.text)
  else if name.text = Bytes.ofString ".phonemeset" then
    (Source.checkAlphabet body).map fun _ => .alphabet body.text
  else .error ⟨.unknownDirective name.text, name.position⟩

/-- Takes a directive behind its name. -/
def takeDirective (finish : Token) (name : Token) (tokens : List Token) :
    Except CompileError (Item × List Token) := do
  let (body, tokens) ← expect finish .directiveBody tokens
  let item ← directiveItem name body
  return (item, tokens)

/-- Takes a block of rules behind its keyword. -/
def takeRules (finish : Token) (scope : Scope) (kind : RuleKind) (tokens : List Token) :
    Except CompileError (Item × List Token) := do
  let (rules, tokens) ← readRules finish scope kind [] tokens
  match kind with
  | .spelling => return (.spellingRules rules, tokens)
  | .letter => return (.letterRules rules, tokens)

/-- Takes the item that starts with the token `t`. -/
def takeItem (finish : Token) (scope : Scope) (t : Token) (tokens : List Token) :
    Except CompileError (Item × List Token) :=
  if t.kind = .directive then takeDirective finish t tokens
  else if t.kind ≠ .text then .error ⟨.unexpected t, t.position⟩
  else if t.text = Bytes.ofString Block.classdef.name then takeClass finish scope tokens
  else if t.text = Bytes.ofString "set" then takeConditional finish scope t tokens
  else if t.text = Bytes.ofString Block.spelling.name then takeRules finish scope .spelling tokens
  else if t.text = Bytes.ofString Block.rules.name then takeRules finish scope .letter tokens
  else if t.text = Bytes.ofString Block.dictionary.name then takeDictionary finish scope tokens
  else .error ⟨.unexpected t, t.position⟩

theorem length_takeDirective_le {finish name : Token} {item : Item} {tokens rest : List Token}
    (h : takeDirective finish name tokens = .ok (item, rest)) : rest.length ≤ tokens.length := by
  obtain ⟨⟨body, behind⟩, hbody, h⟩ := Outcome.exists_of_bind_eq_ok h
  obtain ⟨made, _, h⟩ := Outcome.exists_of_bind_eq_ok h
  cases h
  exact Nat.le_of_lt (length_expect_lt hbody)

theorem length_takeClass_le {finish : Token} {scope : Scope} {item : Item}
    {tokens rest : List Token} (h : takeClass finish scope tokens = .ok (item, rest)) :
    rest.length ≤ tokens.length := by
  obtain ⟨⟨name, behind⟩, hname, h⟩ := Outcome.exists_of_bind_eq_ok h
  obtain ⟨id, _, h⟩ := Outcome.exists_of_bind_eq_ok h
  obtain ⟨⟨members, last⟩, hmembers, h⟩ := Outcome.exists_of_bind_eq_ok h
  cases h
  exact Nat.le_trans (length_readMembers_le hmembers) (Nat.le_of_lt (length_expect_lt hname))

theorem length_takeConditional_le {finish keyword : Token} {scope : Scope} {item : Item}
    {tokens rest : List Token}
    (h : takeConditional finish scope keyword tokens = .ok (item, rest)) :
    rest.length ≤ tokens.length := by
  obtain ⟨⟨flag, first⟩, hflag, h⟩ := Outcome.exists_of_bind_eq_ok h
  obtain ⟨⟨polarity, name⟩, _, h⟩ := Outcome.exists_of_bind_eq_ok h
  obtain ⟨⟨word, second⟩, hword, h⟩ := Outcome.exists_of_bind_eq_ok h
  obtain ⟨_, _, h⟩ := Outcome.exists_of_bind_eq_ok h
  obtain ⟨⟨predicate, third⟩, hpredicate, h⟩ := Outcome.exists_of_bind_eq_ok h
  obtain ⟨locale, _, h⟩ := Outcome.exists_of_bind_eq_ok h
  obtain ⟨made, _, h⟩ := Outcome.exists_of_bind_eq_ok h
  cases h
  have h1 := length_expect_lt hflag
  have h2 := length_expect_lt hword
  have h3 := length_expect_lt hpredicate
  omega

theorem length_takeRules_le {finish : Token} {scope : Scope} {kind : RuleKind} {item : Item}
    {tokens rest : List Token} (h : takeRules finish scope kind tokens = .ok (item, rest)) :
    rest.length ≤ tokens.length := by
  obtain ⟨⟨rules, behind⟩, hrules, h⟩ := Outcome.exists_of_bind_eq_ok h
  cases kind <;> cases h <;> exact length_readRules_le hrules

theorem length_takeDictionary_le {finish : Token} {scope : Scope} {item : Item}
    {tokens rest : List Token} (h : takeDictionary finish scope tokens = .ok (item, rest)) :
    rest.length ≤ tokens.length := by
  obtain ⟨⟨format, behind⟩, hformat, h⟩ := Outcome.exists_of_bind_eq_ok h
  obtain ⟨_, _, h⟩ := Outcome.exists_of_bind_eq_ok h
  have hlt := length_expect_lt hformat
  unfold readDictionary at h
  split at h
  · cases h
  · rename_i entries last hentries
    cases h
    have := length_readEntries_le hentries
    omega

theorem length_takeItem_le {finish t : Token} {scope : Scope} {item : Item}
    {tokens rest : List Token} (h : takeItem finish scope t tokens = .ok (item, rest)) :
    rest.length ≤ tokens.length := by
  unfold takeItem at h
  split at h
  · exact length_takeDirective_le h
  split at h
  · cases h
  split at h
  · exact length_takeClass_le h
  split at h
  · exact length_takeConditional_le h
  split at h
  · exact length_takeRules_le h
  split at h
  · exact length_takeRules_le h
  split at h
  · exact length_takeDictionary_le h
  · cases h

/-- Reads items up to the end of the source, those read before in reverse order. -/
def readItems (finish : Token) (scope : Scope) (done : List Item) :
    List Token → Except CompileError (List Item)
  | [] => .ok done.reverse
  | t :: tokens =>
    match _h : takeItem finish scope t tokens with
    | .error e => .error e
    | .ok (item, rest) => readItems finish (scope.after item) (item :: done) rest
termination_by tokens => tokens.length
decreasing_by exact Nat.lt_succ_of_le (length_takeItem_le _h)

/-- The items of a source. -/
def items (source : Bytes) : Except CompileError (List Item) :=
  readItems (Source.endToken source) Scope.empty [] (Source.tokens source)

/-- Reads a language source. -/
def parse (source : Bytes) : Except CompileError Definition :=
  (items source).map Definition.ofItems

end LetterToSound.Language
