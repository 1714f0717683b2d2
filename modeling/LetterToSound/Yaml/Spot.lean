/-!
# Reading positions in a YAML text

Columns say what belongs together in a YAML text, and where a line starts and ends says where a key
may stand. So a reading position knows its line and its place on it.
-/

namespace LetterToSound.Yaml

/-- The character that may mark the start of a text. -/
def byteOrderMark : Char := Char.ofNat 0xFEFF

/-- The line separator. -/
def lineSeparator : Char := Char.ofNat 0x2028

/-- The paragraph separator. -/
def paragraphSeparator : Char := Char.ofNat 0x2029

/-- Whether a character is a blank. -/
def isBlank (c : Char) : Bool := c == ' ' || c == '\t'

/-- Whether a character ends a line. The other breaks have been read as line feeds. -/
def isBreak (c : Char) : Bool := c == '\n' || c == lineSeparator || c == paragraphSeparator

/-- Writes a carriage return, with or without a line feed, and a next line character as a line
feed. -/
def unifyBreaks : List Char → List Char
  | [] => []
  | '\r' :: '\n' :: rest => '\n' :: unifyBreaks rest
  | c :: rest => (if c.toNat = 0x0D ∨ c.toNat = 0x85 then '\n' else c) :: unifyBreaks rest

/-- Whether a text starts with a blank or a break, or is at its end. -/
def endsWord : List Char → Bool
  | [] => true
  | c :: _ => isBlank c || isBreak c

/-- Whether a text starts with the three characters `c` that mark a document. -/
def isMarkerOf (c : Char) : List Char → Bool
  | a :: b :: d :: rest => a == c && b == c && d == c && endsWord rest
  | _ => false

/-- Whether a text starts with one of the marks of documents. -/
def isMarker (text : List Char) : Bool := isMarkerOf '-' text || isMarkerOf '.' text

/-- A place in a text. -/
structure Mark where
  line : Nat
  /-- The number of characters before it on its line. -/
  column : Nat
  /-- The number of bytes before it on its line. -/
  offset : Nat
deriving DecidableEq, Repr

namespace Mark

def start : Mark := ⟨0, 0, 0⟩

/-- The place behind a character. -/
def after (m : Mark) (c : Char) : Mark :=
  if isBreak c then ⟨m.line + 1, 0, 0⟩ else ⟨m.line, m.column + 1, m.offset + c.utf8Size⟩

end Mark

/-- A place in a text, and the text from there on. -/
structure Spot where
  rest : List Char
  mark : Mark
deriving DecidableEq, Repr

namespace Spot

def start (text : List Char) : Spot := ⟨text, Mark.start⟩

/-- Behind a number of characters. -/
def advance (s : Spot) (count : Nat) : Spot :=
  ⟨s.rest.drop count, (s.rest.take count).foldl Mark.after s.mark⟩

/-- Behind the characters from `m` on that satisfy `p`. -/
def dropFrom (p : Char → Bool) : List Char → Mark → Spot
  | [], m => ⟨[], m⟩
  | c :: rest, m => if p c then dropFrom p rest (m.after c) else ⟨c :: rest, m⟩

/-- Behind the characters that satisfy `p`. -/
def dropWhile (s : Spot) (p : Char → Bool) : Spot := dropFrom p s.rest s.mark

end Spot

end LetterToSound.Yaml
