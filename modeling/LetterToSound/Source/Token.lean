import LetterToSound.Text.Bytes

/-!
# Tokens

What a source is made of, with the place where each token starts.
-/

namespace LetterToSound

/-- A place in a source: a line, and a byte of that line, both counted from one. -/
structure Position where
  line : Nat
  column : Nat
deriving DecidableEq, Repr, Inhabited

inductive TokenKind where
  /-- A name with its leading point. -/
  | directive
  /-- The value of a directive. -/
  | directiveBody
  /-- A run of bytes without blanks. -/
  | text
  /-- What stands between slashes. -/
  | phonemes
  /-- What stands between quotes. -/
  | quoted
  | endOfSource
deriving DecidableEq, Repr, Inhabited

/-- The word for a kind in messages. -/
def TokenKind.name : TokenKind → String
  | directive => "Directive"
  | directiveBody => "DirectiveBody"
  | text => "Text"
  | phonemes => "Phonemes"
  | quoted => "Str"
  | endOfSource => "Eof"

/-- A token; its text is without delimiters. -/
structure Token where
  kind : TokenKind
  text : Bytes
  position : Position
deriving DecidableEq, Repr, Inhabited

/-- The text of a token as messages quote it. -/
def Token.shown (t : Token) : String := Utf8.lossy t.text

/-- What is wrong with the spelling of a line. The rest of the line is not read then. -/
inductive LexicalFault where
  | missingBody
  | unclosedPhonemes
  | unclosedString
deriving DecidableEq, Repr

def LexicalFault.message : LexicalFault → String
  | missingBody => "missing directive body"
  | unclosedPhonemes => "missing end of phoneme block (missing closing '/')"
  | unclosedString => "missing end of string (missing closing '\"')"

/-- A fault and the place where the token that it spoils starts. -/
structure Diagnostic where
  fault : LexicalFault
  position : Position
deriving DecidableEq, Repr

end LetterToSound
