import LetterToSound.Number.Single
import LetterToSound.Yaml.Document
import LetterToSound.Yaml.Scalar

/-!
# Writing YAML scalars

A text is written plain where it then reads back as itself and cannot be taken for anything but a
text. A text with line feeds keeps its lines, and other texts stand between apostrophes. Where that
would not show the text as it is, it stands between double quotes, with characters escaped.
-/

namespace LetterToSound.Yaml

/-- Whether a text says a truth value. -/
def isTruth (text : String) : Bool :=
  ["true", "True", "TRUE", "false", "False", "FALSE"].contains text

/-- The least magnitude that a number of the IEEE binary64 format cannot have. -/
def doubleLimit : Nat := (1 <<< 1024) - (1 <<< 970)

/-- Whether `significand * 10 ^ exponent` is a finite number of the IEEE binary64 format. -/
def isFiniteDouble (significand : Nat) (exponent : Int) : Bool :=
  if significand = 0 then true
  else if 0 ≤ exponent then
    exponent ≤ 400 && significand * Nat.pow 10 exponent.toNat < doubleLimit
  else significand < doubleLimit || significand / Nat.pow 10 (-exponent).toNat < doubleLimit

/-- Whether a text is a number in digits, with or without a sign. -/
def isDecimal (cs : List Char) : Bool :=
  match Decimal.parts? (Decimal.splitSign cs).2 with
  | some (significand, exponent) => isFiniteDouble significand exponent
  | none => false

/-- Whether a text is digits with zeros in front, with or without a sign. -/
def hasLeadingZero (cs : List Char) : Bool :=
  match (Decimal.splitSign cs).2 with
  | '0' :: c :: rest => (c :: rest).all Char.isDigit
  | _ => false

/-- The value of digits of a base; none if there are no digits or others. -/
def radixValue? (base : Nat) : List Char → Option Nat
  | [] => none
  | c :: cs => (c :: cs).foldlM (fun n d =>
      (hexDigit? d).bind fun digit => if digit < base then some (n * base + digit) else none) 0

/-- Whether a text is a whole number of at most 128 bits in base 16, 8 or 2. -/
def isRadix (cs : List Char) : Bool :=
  let (negative, unsigned) := Decimal.splitSign cs
  let limit := if negative then (1 <<< 127) + 1 else 1 <<< 128
  let within (base : Nat) (digits : List Char) : Bool := (radixValue? base digits).any (· < limit)
  match unsigned with
  | '0' :: 'x' :: digits => within 16 digits
  | '0' :: 'o' :: digits => within 8 digits
  | '0' :: 'b' :: digits => within 2 digits
  | _ => false

/-- Whether a text is the name of an infinity or of what is not a number. -/
def isNumberName (text : String) : Bool :=
  [".inf", ".Inf", ".INF", "+.inf", "+.Inf", "+.INF", "-.inf", "-.Inf", "-.INF", ".nan", ".NaN",
    ".NAN"].contains text

/-- Whether a plain text would be taken for something else. -/
def isAmbiguous (text : String) : Bool :=
  isNull text || isTruth text || isNumberName text || isDecimal text.toList ||
    hasLeadingZero text.toList || isRadix text.toList

/-- Whether a character can be written as it is. -/
def isPrintable (c : Char) : Bool :=
  let n := c.toNat
  n == 0x0A || (0x20 ≤ n && n ≤ 0x7E) || (0xA0 ≤ n && n ≤ 0xFFFD && c != byteOrderMark) ||
    0x10000 ≤ n

/-- Whether a character that satisfies `q` follows one that satisfies `p`. -/
def hasNeighbours (p q : Char → Bool) : List Char → Bool
  | a :: b :: rest => (p a && q b) || hasNeighbours p q (b :: rest)
  | _ => false

/-- Whether a plain text that goes on with `rest` behind `before` would be cut or taken for
something else there. -/
def hasIndicator (before : Char) : List Char → Bool
  | [] => false
  | c :: rest =>
    (c == ':' && endsWord rest) || (c == '#' && before == ' ') || hasIndicator c rest

/-- Whether a text can be written plain in a block. -/
def canBePlain (cs : List Char) : Bool :=
  match cs with
  | [] => false
  | c :: rest =>
    let marker := ['-', '-', '-'].isPrefixOf cs || ['.', '.', '.'].isPrefixOf cs
    !marker && c != ' ' && cs.getLast? != some ' ' && !cs.any isBreak && !indicators.contains c &&
      !((c == '?' || c == ':' || c == '-') && endsWord rest) && !hasIndicator c rest

/-- How a text is written. -/
inductive Style where
  | plain
  /-- Between apostrophes. -/
  | singleQuoted
  /-- Between double quotes, with characters escaped. -/
  | doubleQuoted
  /-- On lines of its own. -/
  | literal
deriving DecidableEq, Repr

namespace Style

/-- The style of a text. A blank before a break shows in double quotes only. The same is true of a
blank behind one, except on lines of its own, and there the text cannot end with a blank. -/
def of (text : String) : Style :=
  let cs := text.toList
  if !cs.all isPrintable || hasNeighbours (· == ' ') isBreak cs then .doubleQuoted
  else if cs.contains '\n' then
    if cs.getLast? = some ' ' then .doubleQuoted else .literal
  else if hasNeighbours isBreak (· == ' ') cs then .doubleQuoted
  else if isAmbiguous text || !canBePlain cs then .singleQuoted
  else .plain

end Style

/-- Hexadecimal digits in capitals. -/
def hexDigits (width n : Nat) : List Char :=
  (List.range width).map fun i => (Nat.digitChar (n >>> (4 * (width - 1 - i)) % 16)).toUpper

/-- How a character is written behind a backslash. -/
def escaped (c : Char) : List Char :=
  match escapes.find? fun (letter, n) => n == c.toNat && letter != '\t' with
  | some (letter, _) => ['\\', letter]
  | none =>
    let n := c.toNat
    if n ≤ 0xFF then '\\' :: 'x' :: hexDigits 2 n
    else if n ≤ 0xFFFF then '\\' :: 'u' :: hexDigits 4 n
    else '\\' :: 'U' :: hexDigits 8 n

/-- A text between double quotes. -/
def doubleQuoted (cs : List Char) : List Char :=
  '"' :: (cs.flatMap fun c =>
    if isPrintable c && !isBreak c && c != '"' && c != '\\' then [c] else escaped c) ++ ['"']

/-- Puts two blanks before every line that is not empty. `atStart` says whether the text starts a
line. -/
def indentLines (atStart : Bool) : List Char → List Char
  | [] => []
  | c :: rest =>
    if isBreak c then c :: indentLines true rest
    else (if atStart then [' ', ' '] else []) ++ c :: indentLines false rest

/-- A text between apostrophes, those in it twice. -/
def singleQuoted (cs : List Char) : List Char :=
  let doubled := cs.flatMap fun c => if c = apostrophe then [c, c] else [c]
  apostrophe :: indentLines false (doubled ++ [apostrophe])

/-- The marks in the header of a text on lines of its own. The width of the margin is said where the
first line does not show it, and it is said what becomes of the breaks at the end unless there is
one. -/
def blockMarks (cs : List Char) : List Char :=
  let width := if cs.head?.any fun c => c == ' ' || isBreak c then ['2'] else []
  let chomping := match (cs.reverse.takeWhile isBreak).length with
    | 0 => ['-']
    | 1 => if cs.length = 1 then ['+'] else []
    | _ => ['+']
  width ++ chomping

/-- A text on lines of its own. -/
def literal (cs : List Char) : List Char := '|' :: blockMarks cs ++ '\n' :: indentLines true cs

/-- Writes a text as a scalar. -/
def writeText (text : String) : String :=
  match Style.of text with
  | .plain => text
  | .singleQuoted => String.ofList (singleQuoted text.toList)
  | .doubleQuoted => String.ofList (doubleQuoted text.toList)
  | .literal => String.ofList (literal text.toList)

/-- Writes a text that may be missing. -/
def writeOptional : Option String → String
  | none => "null"
  | some text => writeText text

/-- Writes an entry of a mapping whose value is written as `value`, up to the end of its line. -/
def writeEntry (name value : String) : String :=
  let ended := value.toList.getLast?.any isBreak
  name ++ ": " ++ value ++ (if ended then "" else "\n")

end LetterToSound.Yaml
