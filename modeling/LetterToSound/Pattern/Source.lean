import LetterToSound.Phoneme.Explicit

/-!
# Patterns in sources

A pattern is written `LEFT)ANCHOR(RIGHT)`, either context being optional and the last parenthesis
too. The anchor is what a rule replaces; the contexts are what has to stand before and behind it.
-/

namespace LetterToSound

namespace Pattern

/-- Ends the left context in a source; in a stored pattern it starts the left context. -/
def leftMark : UInt8 := 0x29

/-- Starts the right context. -/
def rightMark : UInt8 := 0x28

/-- Stands for an end of the text. -/
def boundary : UInt8 := 0x5F

/-- Starts a condition on the phoneme that comes next. -/
def openLookahead : UInt8 := 0x7B

/-- Ends a condition on the phoneme that comes next. -/
def closeLookahead : UInt8 := 0x7D

/-- Whether a byte stands for a letter class: the capital letters of ASCII do. -/
def isClassId (b : UInt8) : Bool := 0x41 ≤ b && b ≤ 0x5A

end Pattern

/-- What is wrong with a pattern. -/
inductive PatternError where
  | emptyAnchor
  | anchorStart (b : UInt8)
  | anchorOperator (b : UInt8)
  | unbalanced
  | misplacedLookahead
  | unterminatedLookahead
  | invalidLookahead (cause : PhonemeError)
  | repeatedLookahead
deriving DecidableEq, Repr

namespace PatternError

/-- The character that a message shows for a byte: the one with the byte's number. -/
def shown (b : UInt8) : String := String.singleton (Char.ofNat b.toNat)

def message : PatternError → String
  | emptyAnchor => "empty pattern anchor"
  | anchorStart b => "pattern anchor must start with a literal byte, found '" ++ shown b ++ "'"
  | anchorOperator b => "'" ++ shown b ++ "' is not allowed in a pattern anchor"
  | unbalanced => "unbalanced context delimiters"
  | misplacedLookahead =>
    "phoneme lookahead is only allowed in the right context of a rules block"
  | unterminatedLookahead => "unterminated phoneme lookahead"
  | invalidLookahead cause => "invalid phoneme lookahead: " ++ cause.message
  | repeatedLookahead => "only one phoneme lookahead is allowed per context"

end PatternError

/-- The parts of a pattern, contexts in reading order. -/
structure SourcePattern where
  left : Option Bytes
  anchor : Bytes
  right : Option Bytes
deriving DecidableEq, Repr

namespace SourcePattern

open Pattern

/-- What is left of a right context without the parenthesis that may close it. -/
def dropClosing (right : Bytes) : Bytes :=
  if right.getLast? = some leftMark then right.dropLast else right

/-- Cuts the left context off. A closing parenthesis behind an opening one ends no left context. -/
def splitLeft (source : Bytes) : Option Bytes × Bytes :=
  match source.dropWhile (· != leftMark) with
  | [] => (none, source)
  | _ :: rest =>
    let before := source.takeWhile (· != leftMark)
    if before.contains rightMark then (none, source) else (some before, rest)

/-- Cuts the right context off. -/
def splitRight (rest : Bytes) : Bytes × Option Bytes :=
  match rest.dropWhile (· != rightMark) with
  | [] => (rest, none)
  | _ :: right => (rest.takeWhile (· != rightMark), some (dropClosing right))

/-- The parts of a source pattern. -/
def split (source : Bytes) : SourcePattern :=
  let (left, rest) := splitLeft source
  let (anchor, right) := splitRight rest
  ⟨left, anchor, right⟩

/-- Whether an anchor may start with a byte. What may not is a class, or would be taken for a guard
or an operator in a stored pattern. -/
def startsAnchor (b : UInt8) : Bool :=
  !isClassId b && b ∉ [0x40, 0x21, boundary, leftMark, rightMark, openLookahead]

/-- Whether an anchor may go on with a byte. -/
def continuesAnchor (b : UInt8) : Bool :=
  b ∉ [boundary, leftMark, rightMark, openLookahead]

/-- Checks an anchor; its first byte is the group of the rule. -/
def checkAnchor : Bytes → Except PatternError UInt8
  | [] => .error .emptyAnchor
  | first :: rest =>
    if !startsAnchor first then .error (.anchorStart first)
    else match rest.find? (!continuesAnchor ·) with
      | some b => .error (.anchorOperator b)
      | none => .ok first

/-- Checks a context that may hold a lookahead if `lookahead`, and has held one if `seen`. A
lookahead reads nothing, so a second one would ask about the same phoneme. -/
def checkContext (lookahead seen : Bool) : Bytes → Except PatternError Unit
  | [] => .ok ()
  | b :: rest =>
    if b = leftMark ∨ b = rightMark then .error .unbalanced
    else if b = openLookahead then
      if !lookahead then .error .misplacedLookahead
      else if seen then .error .repeatedLookahead
      else match _h : Explicit.splitGroup? rest with
        | none => .error .unterminatedLookahead
        | some (inside, tail) =>
          match FeatureSpec.parse inside with
          | .error cause => .error (.invalidLookahead cause)
          | .ok _ => checkContext lookahead true tail
    else checkContext lookahead seen rest
termination_by bytes => bytes.length
decreasing_by
  · exact Nat.lt_succ_of_lt (Explicit.length_splitGroup?_lt _h)
  · exact Nat.lt_succ_self _

/-- Checks all parts, the anchor first; only the right context may hold a lookahead. The result is
the group. -/
def check (lookahead : Bool) (p : SourcePattern) : Except PatternError UInt8 := do
  let group ← checkAnchor p.anchor
  checkContext false false (p.left.getD [])
  checkContext lookahead false (p.right.getD [])
  return group

end SourcePattern

end LetterToSound
