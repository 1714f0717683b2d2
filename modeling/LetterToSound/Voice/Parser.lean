import LetterToSound.Number.Single
import LetterToSound.Source.Lexer
import LetterToSound.Source.Reading
import LetterToSound.Voice.Definition

/-!
# Reading voice sources

The tokens of a voice source are read item by item. All that an item needs to know of those before
it is the alphabet that they put in force. Every reader hands on the tokens that it leaves, and it
leaves no more than it was given, so reading ends.
-/

namespace LetterToSound.Voice

open Source (endWord expect length_expect_lt)

/-- The alphabet in force behind an item. -/
def alphabetAfter (alphabet : Option Alphabet) : Item → Option Alphabet
  | .alphabet name => Alphabet.named? (Utf8.lossy name)
  | .phoneme _ => some (alphabet.getD defaultAlphabet)
  | _ => alphabet

/-- Bytes without a word at their end. -/
def dropEnding? (ending : String) (text : Bytes) : Option Bytes :=
  (Bytes.ofString ending).isSuffixOf? text

/-- Reads a number that may have white space around it. -/
def readNumber {α : Type} (read? : List Char → Option α) (quantity : Quantity) (t : Token) :
    Except CompileError α :=
  match (Bytes.toString? t.text).bind fun s => read? (Text.trim s.toList) with
  | some value => .ok value
  | none => .error ⟨.invalidNumber quantity t.text, t.position⟩

/-- Reads a finite number. -/
def finite? (cs : List Char) : Option Single :=
  (Decimal.single? cs).filter Single.isFinite

/-- Reads a frequency, with or without its unit `Hz`. -/
def readFrequency (t : Token) : Except CompileError Single :=
  match (Bytes.toString? ((dropEnding? "Hz" t.text).getD t.text)).bind fun s =>
      finite? s.toList with
  | some hz => .ok hz
  | none => .error ⟨.invalidFrequency t.text, t.position⟩

/-- What a time is written as: its digits, and how many milliseconds its unit has. Milliseconds are
the unit of a time without one. -/
def splitUnit (text : Bytes) : Bytes × Nat :=
  match dropEnding? "ms" text with
  | some value => (value, 1)
  | none =>
    match dropEnding? "s" text with
    | some value => (value, 1000)
    | none => (text, 1)

/-- Reads a time, rounded to milliseconds. -/
def readTime (t : Token) : Except CompileError UInt16 :=
  let (value, scale) := splitUnit t.text
  match (Bytes.toString? value).bind fun s =>
      (Decimal.single? s.toList).bind fun x => (x * Single.ofNat scale).toNatUpTo? 65535 with
  | some milliseconds => .ok (UInt16.ofNat milliseconds)
  | none => .error ⟨.invalidDuration t.text, t.position⟩

/-- Reads the start of a unit, a percentage. -/
def readStart (t : Token) : Except CompileError UInt8 :=
  match Decimal.natUpTo? 255 (t.text.map fun b => Char.ofNat b.toNat) with
  | none => .error ⟨.invalidNumber .unitStart t.text, t.position⟩
  | some start =>
    if 100 < start then .error ⟨.startOutOfRange, t.position⟩ else .ok (UInt8.ofNat start)

/-- Reads a list of features between braces. -/
def readCondition (t : Token) : Except CompileError FeatureSpec :=
  let inside := t.text.tail
  if t.text.head? = some Pattern.openLookahead ∧ inside.getLast? = some Pattern.closeLookahead then
    match FeatureSpec.parse inside.dropLast with
    | .ok spec => .ok spec
    | .error cause => .error ⟨.invalidCondition cause, t.position⟩
  else .error ⟨.unterminatedCondition, t.position⟩

/-- Takes the token that comes next, if it is a word of a certain form. -/
def takeWordIf (p : Bytes → Bool) : List Token → Option Token × List Token
  | [] => (none, [])
  | t :: rest => if t.kind = .text ∧ p t.text then (some t, rest) else (none, t :: rest)

theorem length_takeWordIf_le (p : Bytes → Bool) (tokens : List Token) :
    (takeWordIf p tokens).2.length ≤ tokens.length := by
  unfold takeWordIf
  split
  · exact Nat.le_refl _
  · split
    · exact Nat.le_succ _
    · exact Nat.le_refl _

/-- Whether a word starts a list of features. -/
def startsCondition (word : Bytes) : Bool := word.head? == some Pattern.openLookahead

/-- Whether a word is made of digits. -/
def isDigits (word : Bytes) : Bool := !word.isEmpty && word.all fun b => 0x30 ≤ b && b ≤ 0x39

/-- A condition that may be left out, and then holds always. -/
def conditionOf : Option Token → Except CompileError FeatureSpec
  | none => .ok FeatureSpec.empty
  | some t => readCondition t

/-- A start that may be left out, and is then the start of the unit. -/
def startOf : Option Token → Except CompileError UInt8
  | none => .ok 0
  | some t => readStart t

/-- Takes a duration behind its keyword. -/
def takeDuration (finish : Token) (tokens : List Token) :
    Except CompileError (DurationEntry × List Token) := do
  let (mean, tokens) ← expect finish .text tokens
  let mean ← readTime mean
  let (deviation, tokens) ← expect finish .text tokens
  let deviation ← readTime deviation
  let condition ← conditionOf (takeWordIf startsCondition tokens).1
  return (⟨mean, deviation, condition⟩, (takeWordIf startsCondition tokens).2)

/-- Takes a unit behind its keyword. -/
def takeUnit (finish : Token) (tokens : List Token) :
    Except CompileError (UnitEntry × List Token) := do
  let (name, tokens) ← expect finish .quoted tokens
  let start ← startOf (takeWordIf isDigits tokens).1
  return (⟨name.text, start⟩, (takeWordIf isDigits tokens).2)

theorem length_takeDuration_le {finish : Token} {entry : DurationEntry} {tokens rest : List Token}
    (h : takeDuration finish tokens = .ok (entry, rest)) : rest.length ≤ tokens.length := by
  obtain ⟨⟨mean, first⟩, hmean, h⟩ := Outcome.exists_of_bind_eq_ok h
  obtain ⟨_, _, h⟩ := Outcome.exists_of_bind_eq_ok h
  obtain ⟨⟨deviation, second⟩, hdeviation, h⟩ := Outcome.exists_of_bind_eq_ok h
  obtain ⟨_, _, h⟩ := Outcome.exists_of_bind_eq_ok h
  obtain ⟨_, _, h⟩ := Outcome.exists_of_bind_eq_ok h
  cases h
  have h1 := length_expect_lt hmean
  have h2 := length_expect_lt hdeviation
  have h3 := length_takeWordIf_le startsCondition second
  omega

theorem length_takeUnit_le {finish : Token} {entry : UnitEntry} {tokens rest : List Token}
    (h : takeUnit finish tokens = .ok (entry, rest)) : rest.length ≤ tokens.length := by
  obtain ⟨⟨name, behind⟩, hname, h⟩ := Outcome.exists_of_bind_eq_ok h
  obtain ⟨_, _, h⟩ := Outcome.exists_of_bind_eq_ok h
  cases h
  have h1 := length_expect_lt hname
  have h2 := length_takeWordIf_le isDigits behind
  omega

/-- A line of a phoneme block. -/
inductive Line where
  | duration (entry : DurationEntry)
  | unit (entry : UnitEntry)
deriving DecidableEq, Repr

namespace Line

def duration? : Line → Option DurationEntry
  | duration entry => some entry
  | _ => none

def unit? : Line → Option UnitEntry
  | unit entry => some entry
  | _ => none

end Line

/-- Takes the line that starts with the token `t`. -/
def takeLine (finish : Token) (t : Token) (tokens : List Token) :
    Except CompileError (Line × List Token) :=
  if t.kind ≠ .text then .error ⟨.unexpected t, t.position⟩
  else if t.text = Bytes.ofString "duration" then
    (takeDuration finish tokens).map fun (entry, rest) => (.duration entry, rest)
  else if t.text = Bytes.ofString "unit" then
    (takeUnit finish tokens).map fun (entry, rest) => (.unit entry, rest)
  else .error ⟨.unexpected t, t.position⟩

theorem length_takeLine_le {finish t : Token} {line : Line} {tokens rest : List Token}
    (h : takeLine finish t tokens = .ok (line, rest)) : rest.length ≤ tokens.length := by
  unfold takeLine at h
  split at h
  · cases h
  split at h
  · cases htake : takeDuration finish tokens with
    | error e => rw [htake] at h; cases h
    | ok r => rw [htake] at h; cases h; exact length_takeDuration_le htake
  split at h
  · cases htake : takeUnit finish tokens with
    | error e => rw [htake] at h; cases h
    | ok r => rw [htake] at h; cases h; exact length_takeUnit_le htake
  · cases h

/-- Reads lines up to the end of their block, those read before in reverse order. -/
def readLines (finish : Token) (done : List Line) :
    List Token → Except CompileError (List Line × List Token)
  | [] => .error ⟨.missingEnd .phoneme, finish.position⟩
  | t :: tokens =>
    if t.kind = .text ∧ t.text = endWord then .ok (done.reverse, tokens)
    else match _h : takeLine finish t tokens with
      | .error e => .error e
      | .ok (line, rest) => readLines finish (line :: done) rest
termination_by tokens => tokens.length
decreasing_by exact Nat.lt_succ_of_le (length_takeLine_le _h)

theorem length_readLines_le {finish : Token} {done lines : List Line} {tokens rest : List Token}
    (h : readLines finish done tokens = .ok (lines, rest)) : rest.length ≤ tokens.length := by
  fun_induction readLines finish done tokens with
  | case2 => cases h; simp
  | case4 done t tokens hend line behind htake ih =>
    have h1 := ih h
    have h2 := length_takeLine_le htake
    simp only [List.length_cons]
    omega
  | _ => cases h

/-- The one or two phonemes that an entry is for. -/
def phonemesOf (alphabet : Option Alphabet) (t : Token) : Except CompileError (Phoneme × Phoneme) :=
  match Source.phonemes (some (alphabet.getD defaultAlphabet)) t with
  | .error e => .error e
  | .ok [first] => .ok (first, Phoneme.unspecified)
  | .ok [first, second] => .ok (first, second)
  | .ok ps => .error ⟨.phonemeCount ps.length, t.position⟩

/-- Takes a phoneme entry behind its keyword. -/
def takePhoneme (finish : Token) (alphabet : Option Alphabet) (tokens : List Token) :
    Except CompileError (Item × List Token) := do
  let (text, tokens) ← expect finish .phonemes tokens
  let (first, second) ← phonemesOf alphabet text
  let (lines, tokens) ← readLines finish [] tokens
  return (.phoneme ⟨first, second, lines.filterMap Line.duration?, lines.filterMap Line.unit?⟩,
    tokens)

/-- Takes a pitch line behind its keyword. -/
def takePitch (finish : Token) (tokens : List Token) : Except CompileError (Item × List Token) := do
  let (base, tokens) ← expect finish .text tokens
  let base ← readFrequency base
  let (step, tokens) ← expect finish .text tokens
  let step ← readFrequency step
  let (deviation, tokens) ← expect finish .text tokens
  let deviation ← readFrequency deviation
  return (.pitch ⟨base, step, deviation⟩, tokens)

/-- The gender that a word says. -/
def readGender (t : Token) : Except CompileError Gender :=
  if t.text = Bytes.ofString "male" then .ok .male
  else if t.text = Bytes.ofString "female" then .ok .female
  else .error ⟨.unsupportedGender t.text, t.position⟩

/-- What a directive says. -/
def directiveItem (name body : Token) : Except CompileError Item :=
  if name.text = Bytes.ofString ".id" then .ok (.id body.text)
  else if name.text = Bytes.ofString ".name" then .ok (.name body.text)
  else if name.text = Bytes.ofString ".synthesizer" then .ok (.synthesizer body.text)
  else if name.text = Bytes.ofString ".voice-author" then .ok (.author body.text)
  else if name.text = Bytes.ofString ".phonemeset" then
    (Source.checkAlphabet body).map fun _ => .alphabet body.text
  else if name.text = Bytes.ofString ".gender" then (readGender body).map .gender
  else if name.text = Bytes.ofString ".volume-scale" then
    (readNumber Decimal.single? .volumeScale body).map .volumeScale
  else if name.text = Bytes.ofString ".frequency" then
    (readNumber (Decimal.natUpTo? 65535) .frequency body).map fun n => .frequency (UInt16.ofNat n)
  else if name.text = Bytes.ofString ".channels" then
    (readNumber (Decimal.natUpTo? 255) .channelCount body).map fun n => .channels (UInt8.ofNat n)
  else if name.text = Bytes.ofString ".sample-format" then .ok (.sampleFormat body.text)
  else .error ⟨.unknownDirective name.text, name.position⟩

/-- Takes a directive behind its name. -/
def takeDirective (finish : Token) (name : Token) (tokens : List Token) :
    Except CompileError (Item × List Token) := do
  let (body, tokens) ← expect finish .directiveBody tokens
  let item ← directiveItem name body
  return (item, tokens)

/-- Takes the item that starts with the token `t`. -/
def takeItem (finish : Token) (alphabet : Option Alphabet) (t : Token) (tokens : List Token) :
    Except CompileError (Item × List Token) :=
  if t.kind = .directive then takeDirective finish t tokens
  else if t.kind ≠ .text then .error ⟨.unexpected t, t.position⟩
  else if t.text = Bytes.ofString "pitch" then takePitch finish tokens
  else if t.text = Bytes.ofString Block.phoneme.name then takePhoneme finish alphabet tokens
  else .error ⟨.unexpected t, t.position⟩

theorem length_takePhoneme_le {finish : Token} {alphabet : Option Alphabet} {item : Item}
    {tokens rest : List Token} (h : takePhoneme finish alphabet tokens = .ok (item, rest)) :
    rest.length ≤ tokens.length := by
  obtain ⟨⟨text, first⟩, htext, h⟩ := Outcome.exists_of_bind_eq_ok h
  obtain ⟨⟨_, _⟩, _, h⟩ := Outcome.exists_of_bind_eq_ok h
  obtain ⟨⟨lines, second⟩, hlines, h⟩ := Outcome.exists_of_bind_eq_ok h
  cases h
  exact Nat.le_trans (length_readLines_le hlines) (Nat.le_of_lt (length_expect_lt htext))

theorem length_takePitch_le {finish : Token} {item : Item} {tokens rest : List Token}
    (h : takePitch finish tokens = .ok (item, rest)) : rest.length ≤ tokens.length := by
  obtain ⟨⟨base, first⟩, hbase, h⟩ := Outcome.exists_of_bind_eq_ok h
  obtain ⟨_, _, h⟩ := Outcome.exists_of_bind_eq_ok h
  obtain ⟨⟨step, second⟩, hstep, h⟩ := Outcome.exists_of_bind_eq_ok h
  obtain ⟨_, _, h⟩ := Outcome.exists_of_bind_eq_ok h
  obtain ⟨⟨deviation, third⟩, hdeviation, h⟩ := Outcome.exists_of_bind_eq_ok h
  obtain ⟨_, _, h⟩ := Outcome.exists_of_bind_eq_ok h
  cases h
  have h1 := length_expect_lt hbase
  have h2 := length_expect_lt hstep
  have h3 := length_expect_lt hdeviation
  omega

theorem length_takeDirective_le {finish name : Token} {item : Item} {tokens rest : List Token}
    (h : takeDirective finish name tokens = .ok (item, rest)) : rest.length ≤ tokens.length := by
  obtain ⟨⟨body, behind⟩, hbody, h⟩ := Outcome.exists_of_bind_eq_ok h
  obtain ⟨_, _, h⟩ := Outcome.exists_of_bind_eq_ok h
  cases h
  exact Nat.le_of_lt (length_expect_lt hbody)

theorem length_takeItem_le {finish t : Token} {alphabet : Option Alphabet} {item : Item}
    {tokens rest : List Token} (h : takeItem finish alphabet t tokens = .ok (item, rest)) :
    rest.length ≤ tokens.length := by
  unfold takeItem at h
  split at h
  · exact length_takeDirective_le h
  split at h
  · cases h
  split at h
  · exact length_takePitch_le h
  split at h
  · exact length_takePhoneme_le h
  · cases h

/-- Reads items up to the end of the source, those read before in reverse order. -/
def readItems (finish : Token) (alphabet : Option Alphabet) (done : List Item) :
    List Token → Except CompileError (List Item)
  | [] => .ok done.reverse
  | t :: tokens =>
    match _h : takeItem finish alphabet t tokens with
    | .error e => .error e
    | .ok (item, rest) => readItems finish (alphabetAfter alphabet item) (item :: done) rest
termination_by tokens => tokens.length
decreasing_by exact Nat.lt_succ_of_le (length_takeItem_le _h)

/-- The items of a source. -/
def items (source : Bytes) : Except CompileError (List Item) :=
  readItems (Source.endToken source) none [] (Source.tokens source)

/-- Reads a voice source. -/
def parse (source : Bytes) : Except CompileError Definition :=
  (items source).map Definition.ofItems

end LetterToSound.Voice
