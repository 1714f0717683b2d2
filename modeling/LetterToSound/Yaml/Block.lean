import LetterToSound.Yaml.Spot

/-!
# Reading block scalars

A block scalar is the lines behind a header line that have a margin of blanks. Its header says
whether single breaks are folded, how wide the margin is, and what becomes of the breaks at the end.
-/

namespace LetterToSound.Yaml

/-- What becomes of the breaks at the end of a block scalar. -/
inductive Chomping where
  /-- All go. -/
  | strip
  /-- The first one stays. -/
  | clip
  /-- All stay. -/
  | keep
deriving DecidableEq, Repr

/-- What the header of a block scalar says. -/
structure BlockHeader where
  chomping : Chomping
  /-- By how much the margin is wider than that of the block around; zero if the lines show it. -/
  width : Nat
deriving DecidableEq, Repr

namespace BlockHeader

def chomping? (c : Char) : Option Chomping :=
  if c = '+' then some .keep else if c = '-' then some .strip else none

def width? (c : Char) : Option Nat := if c.isDigit then some (c.toNat - 0x30) else none

/-- Reads the marks of a header, in either order: what they say, and their number. -/
def read : List Char → BlockHeader × Nat
  | [] => (⟨.clip, 0⟩, 0)
  | c :: rest =>
    match chomping? c, width? c with
    | some chomping, _ =>
      match rest.head?.bind width? with
      | some width => (⟨chomping, width⟩, 2)
      | none => (⟨chomping, 0⟩, 1)
    | none, some width =>
      match rest.head?.bind chomping? with
      | some chomping => (⟨chomping, width⟩, 2)
      | none => (⟨.clip, width⟩, 1)
    | none, none => (⟨.clip, 0⟩, 0)

/-- Whether a mark says that the margin is not wider at all. -/
def isFlat (marks : List Char) : Bool := marks.contains '0'

end BlockHeader

/-- The place behind empty lines. -/
structure Margin where
  spot : Spot
  /-- The greatest number of blanks on a line. -/
  width : Nat
  /-- The breaks of the empty lines, the last one first. -/
  breaks : List Char

/-- Goes behind empty lines and the blanks of the next one, taking at most `limit` of these if it is
not zero. A tab may not stand among them. -/
def marginFrom (limit width : Nat) (breaks : List Char) : List Char → Mark → Option Margin
  | [], m => some ⟨⟨[], m⟩, max width m.column, breaks⟩
  | c :: rest, m =>
    let inside := limit = 0 ∨ m.column < limit
    if c = ' ' ∧ inside then marginFrom limit width breaks rest (m.after c)
    else if c = '\t' ∧ inside then none
    else if isBreak c then
      marginFrom limit (max width m.column) (c :: breaks) rest (m.after c)
    else some ⟨⟨c :: rest, m⟩, max width m.column, breaks⟩

/-- What has been read of a block scalar. -/
structure BlockText where
  /-- The lines before, in reverse order. -/
  done : List Char
  /-- Whether the last line starts with a blank. -/
  isIndented : Bool
  /-- The break at the end of the last line. -/
  lastBreak : Option Char
  /-- The breaks of the empty lines behind it, the last one first. -/
  breaks : List Char
  /-- Whether a line is being read. -/
  inLine : Bool

namespace BlockText

/-- Starts a line with a character. -/
def startLine (b : BlockText) (folded : Bool) (c : Char) : BlockText :=
  let before :=
    if folded && b.lastBreak == some '\n' && !b.isIndented && !isBlank c then
      if b.breaks.isEmpty then ' ' :: b.done else b.breaks ++ b.done
    else b.breaks ++ (b.lastBreak.toList ++ b.done)
  ⟨c :: before, isBlank c, none, [], true⟩

/-- The text when its end is reached. -/
def finish (b : BlockText) (chomping : Chomping) : String :=
  String.ofList (match chomping with
    | .strip => b.done
    | .clip => b.lastBreak.toList ++ b.done
    | .keep => b.breaks ++ (b.lastBreak.toList ++ b.done)).reverse

end BlockText

/-- Reads lines whose margin is `margin` blanks wide. -/
def linesFrom (folded : Bool) (margin : Nat) (b : BlockText) :
    List Char → Mark → Option (BlockText × Spot)
  | [], m => some (b, ⟨[], m⟩)
  | c :: rest, m =>
    if b.inLine then
      if isBreak c then
        linesFrom folded margin { b with lastBreak := some c, inLine := false } rest (m.after c)
      else linesFrom folded margin { b with done := c :: b.done } rest (m.after c)
    else if c = ' ' ∧ m.column < margin then linesFrom folded margin b rest (m.after c)
    else if c = '\t' ∧ m.column < margin then none
    else if isBreak c then
      linesFrom folded margin { b with breaks := c :: b.breaks } rest (m.after c)
    else if m.column = margin then
      linesFrom folded margin (b.startLine folded c) rest (m.after c)
    else some (b, ⟨c :: rest, m⟩)

/-- Behind the header line, if nothing but a comment stands in the rest of it. -/
def Spot.behindHeader? (s : Spot) : Option Spot :=
  let t := s.dropWhile isBlank
  let t := if t.rest.head? = some '#' then t.dropWhile (!isBreak ·) else t
  match t.rest with
  | [] => some t
  | c :: _ => if isBreak c then some (t.advance 1) else none

/-- Reads the block scalar whose mark is here. The margin is as wide as that of the first line, and
at least `floor`. -/
def Spot.block? (s : Spot) (folded : Bool) (floor : Nat) : Option (String × Spot) := do
  let marks := s.advance 1
  let (header, count) := BlockHeader.read marks.rest
  if BlockHeader.isFlat (marks.rest.take count) then none
  let lines ← (marks.advance count).behindHeader?
  let limit := if header.width = 0 then 0 else floor - 1 + header.width
  let margin ← marginFrom limit 0 [] lines.rest lines.mark
  let width := if limit = 0 then max (max margin.width floor) 1 else limit
  let (text, behind) ←
    linesFrom folded width ⟨[], false, none, margin.breaks, false⟩ margin.spot.rest margin.spot.mark
  return (text.finish header.chomping, behind)

end LetterToSound.Yaml
