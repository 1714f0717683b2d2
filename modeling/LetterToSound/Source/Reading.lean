import LetterToSound.Container.Plan
import LetterToSound.Outcome
import LetterToSound.Pattern.Source
import LetterToSound.Phoneme.Alphabet
import LetterToSound.Source.Token

/-!
# Reading tokens, and why a source cannot be compiled

Every cause is a value; its wording and whether it is a matter of syntax, of meaning or of writing
are functions of it.
-/

namespace LetterToSound

/-- The blocks of sources that a closing word ends. -/
inductive Block where
  | classdef | spelling | rules | dictionary | phoneme
deriving DecidableEq, Repr

/-- The word that starts a block. -/
def Block.name : Block → String
  | classdef => "classdef"
  | spelling => "rewrite"
  | rules => "rules"
  | dictionary => "dictionary"
  | phoneme => "phoneme"

/-- What a number in a voice source says. -/
inductive Quantity where
  | volumeScale | frequency | channelCount | unitStart
deriving DecidableEq, Repr

def Quantity.name : Quantity → String
  | volumeScale => "volume scale"
  | frequency => "frequency"
  | channelCount => "channel count"
  | unitStart => "unit start offset"

inductive CompileFault where
  -- about syntax
  | expected (kind : TokenKind) (found : Token)
  | unexpected (found : Token)
  | missingEnd (block : Block)
  | malformedPattern (cause : PatternError)
  | unterminatedCondition
  -- about meaning
  | unknownDirective (name : Bytes)
  | unknownAlphabet (name : Bytes)
  | unsupportedGender (name : Bytes)
  | invalidNumber (quantity : Quantity) (text : Bytes)
  | invalidFrequency (text : Bytes)
  | invalidDuration (text : Bytes)
  | startOutOfRange
  | noClassId (name : Bytes)
  | repeatedClass (id : UInt8)
  | malformedConditional
  | tooManyConditionals
  | unknownConditional (name : Bytes)
  | unsupportedDictionary (format : Bytes)
  | invalidTranscription (word : Bytes) (cause : PhonemeError)
  | noAlphabet
  | invalidPhonemes (text : Bytes) (cause : PhonemeError)
  | phonemeCount (count : Nat)
  | invalidCondition (cause : PhonemeError)
  | excess (cause : Excess)
  -- about writing
  | output (cause : WriteError)
deriving DecidableEq, Repr

inductive FaultKind where
  | syntactic | semantic | output
deriving DecidableEq, Repr

def FaultKind.name : FaultKind → String
  | syntactic => "SyntaxError"
  | semantic => "SemanticError"
  | output => "OutputError"

namespace CompileFault

def kind : CompileFault → FaultKind
  | expected .. | unexpected _ | missingEnd _ | malformedPattern _ | unterminatedCondition =>
    .syntactic
  | output _ => .output
  | _ => .semantic

/-- A token as messages about syntax name it. -/
def describe (t : Token) : String := t.kind.name ++ " '" ++ t.shown ++ "'"

def message : CompileFault → String
  | expected kind found =>
    "expected " ++ kind.name ++ ", got " ++
      (if found.kind = .endOfSource then "end of file" else describe found)
  | unexpected found => "unexpected " ++ describe found
  | missingEnd block => "missing 'end' after " ++ block.name
  | malformedPattern cause => cause.message
  | unterminatedCondition => "unterminated feature condition"
  | unknownDirective name => "unknown directive '" ++ Utf8.lossy name ++ "'"
  | unknownAlphabet name => "unknown phoneme set '" ++ Utf8.lossy name ++ "'"
  | unsupportedGender name => "unsupported gender value '" ++ Utf8.lossy name ++ "'"
  | invalidNumber quantity text => "invalid " ++ quantity.name ++ " '" ++ Utf8.lossy text ++ "'"
  | invalidFrequency text => "invalid frequency '" ++ Utf8.lossy text ++ "'"
  | invalidDuration text => "invalid duration '" ++ Utf8.lossy text ++ "'"
  | startOutOfRange => "unit start offset must be a percentage (0-100)"
  | noClassId name => "classdef id must be one of A-Z, got '" ++ Utf8.lossy name ++ "'"
  | repeatedClass id => "classdef '" ++ PatternError.shown id ++ "' is already defined"
  | malformedConditional => "malformed conditional: expected 'set @name if locale=VALUE'"
  | tooManyConditionals => "too many conditionals"
  | unknownConditional name => "unknown conditional '" ++ Utf8.lossy name ++ "'"
  | unsupportedDictionary format => "unsupported dictionary format '" ++ Utf8.lossy format ++ "'"
  | invalidTranscription word cause =>
    "invalid transcription for '" ++ Utf8.lossy word ++ "': " ++ cause.message
  | noAlphabet => "phonemes used before '.phonemeset'"
  | invalidPhonemes text cause =>
    "invalid phonemes /" ++ Utf8.lossy text ++ "/: " ++ cause.message
  | phonemeCount count => s!"a phoneme entry needs 1 or 2 phonemes, got {count}"
  | invalidCondition cause => cause.message
  | excess cause => cause.message
  | output cause => cause.message

end CompileFault

/-- A fault and its place in the source. A fault that only writing shows is at line 0. -/
structure CompileError where
  fault : CompileFault
  position : Position
deriving DecidableEq, Repr

namespace CompileError

def ofEmit : EmitError → CompileError
  | .write cause => ⟨.output cause, ⟨0, 0⟩⟩
  | .excess cause => ⟨.excess cause, ⟨0, 0⟩⟩

def message (e : CompileError) : String :=
  s!"[{e.position.line}:{e.position.column}] {e.fault.kind.name}: {e.fault.message}"

end CompileError

end LetterToSound

/-!
## Taking tokens

What readers of language sources and of voice sources have in common. A reader hands on the tokens
that it leaves.
-/

namespace LetterToSound.Source

/-- The word that ends a block. -/
def endWord : Bytes := Bytes.ofString "end"

/-- Takes a token of a kind. At the end of the source `finish` is what is found. -/
def expect (finish : Token) (kind : TokenKind) :
    List Token → Except CompileError (Token × List Token)
  | [] => .error ⟨.expected kind finish, finish.position⟩
  | t :: rest => if t.kind = kind then .ok (t, rest) else .error ⟨.expected kind t, t.position⟩

theorem length_expect_lt {finish t : Token} {kind : TokenKind} {tokens rest : List Token}
    (h : expect finish kind tokens = .ok (t, rest)) : rest.length < tokens.length := by
  unfold expect at h
  split at h
  · cases h
  · split at h <;> cases h
    simp

/-- Reads the phonemes of a token in the alphabet in force. -/
def phonemes (alphabet : Option Alphabet) (t : Token) : Except CompileError (List Phoneme) :=
  match alphabet with
  | none => .error ⟨.noAlphabet, t.position⟩
  | some a =>
    match a.parse t.text with
    | .error cause => .error ⟨.invalidPhonemes t.text cause, t.position⟩
    | .ok ps => .ok ps

/-- Checks that a token names an alphabet. -/
def checkAlphabet (t : Token) : Except CompileError Unit :=
  if (Alphabet.named? t.shown).isSome then .ok ()
  else .error ⟨.unknownAlphabet t.text, t.position⟩

end LetterToSound.Source
