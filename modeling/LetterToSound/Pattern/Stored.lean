import LetterToSound.Language.Condition
import LetterToSound.Pattern.Source

/-!
# Stored patterns

A stored pattern puts the anchor first, so that it is read forwards from where a rule is tried, then
the right context, and last the left context in reverse, since that is read backwards. One closing
parenthesis ends the right context and starts the left one. A guard stands in front of all.
-/

namespace LetterToSound

/-- Restricts a rule to the case where a conditional holds, or does not. -/
structure Guard where
  polarity : Polarity
  id : UInt8
deriving DecidableEq, Repr

namespace Guard

/-- The bytes of a guard in front of a stored pattern. -/
def bytes (g : Guard) : Bytes := [g.polarity.byte, g.id]

end Guard

/-- A pattern as rules keep it. -/
structure StoredPattern where
  /-- The first byte of the anchor. -/
  group : UInt8
  bytes : Bytes
deriving DecidableEq, Repr

namespace StoredPattern

open Pattern

/-- The bytes of the contexts behind the anchor. -/
def contextBytes : Option Bytes → Option Bytes → Bytes
  | none, none => []
  | some left, none => leftMark :: left.reverse
  | left, some right => rightMark :: (right ++ leftMark :: (left.getD []).reverse)

/-- The stored bytes of a pattern and its guard. -/
def encode (guard : Option Guard) (p : SourcePattern) : Bytes :=
  (guard.elim [] Guard.bytes) ++ (p.anchor ++ contextBytes p.left p.right)

/-- Checks a source pattern and stores it; `lookahead` tells whether it may ask for the phoneme that
comes next. -/
def ofSource (source : Bytes) (guard : Option Guard) (lookahead : Bool) :
    Except PatternError StoredPattern :=
  let p := SourcePattern.split source
  (p.check lookahead).map fun group => ⟨group, encode guard p⟩

/-- The stored bytes behind the guard. -/
def body : Bytes → Bytes
  | [] => []
  | b :: rest => if (Polarity.ofByte? b).isSome then rest.drop 1 else b :: rest

/-- Whether stored bytes hold a right context. -/
def hasRightContext (pattern : Bytes) : Bool := (body pattern).contains rightMark

end StoredPattern

end LetterToSound
