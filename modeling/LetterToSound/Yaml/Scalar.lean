import LetterToSound.Yaml.Spot

/-!
# Reading YAML scalars

A scalar may go on over several lines. The breaks inside it are folded: a line feed alone reads as a
space, a line feed with other breaks behind it does not count, and the blanks around breaks do not
count.
-/

namespace LetterToSound.Yaml

/-- The first of the breaks between two parts of a scalar. -/
inductive FirstBreak where
  | none
  /-- A break that a backslash stands before. -/
  | hidden
  | seen (c : Char)
deriving DecidableEq, Repr

/-- Blanks and breaks that have been read, but count only if the scalar goes on. -/
structure Gap where
  /-- The blanks before any break, the last one first. -/
  blanks : List Char
  first : FirstBreak
  /-- The breaks behind the first one, the last one first. -/
  breaks : List Char
deriving DecidableEq, Repr

namespace Gap

def empty : Gap := ⟨[], .none, []⟩

/-- Behind a break that does not count. -/
def escaped : Gap := ⟨[], .hidden, []⟩

/-- Whether there is a break. -/
def isBroken (g : Gap) : Bool := g.first != .none

/-- Whether there is nothing. -/
def isEmpty (g : Gap) : Bool := !g.isBroken && g.blanks.isEmpty

def addBlank (g : Gap) (c : Char) : Gap :=
  if g.isBroken then g else { g with blanks := c :: g.blanks }

def addBreak (g : Gap) (c : Char) : Gap :=
  if g.isBroken then { g with breaks := c :: g.breaks } else ⟨[], .seen c, []⟩

/-- The text that the gap reads as, in front of `done`; both in reverse order. -/
def onto (g : Gap) (done : List Char) : List Char :=
  match g.first with
  | .none => g.blanks ++ done
  | .hidden => g.breaks ++ done
  | .seen c =>
    if c != '\n' then g.breaks ++ c :: done
    else if g.breaks.isEmpty then ' ' :: done
    else g.breaks ++ done

end Gap

/-- The characters that a plain scalar cannot start with. -/
def indicators : List Char := ",[]\x7b\x7d#&*!|>'\"%@`".toList

/-- The characters that end a plain scalar between brackets. -/
def brackets : List Char := ",[]\x7b\x7d".toList

/-- Whether a plain scalar can start here. -/
def startsPlain (between : Bool) : List Char → Bool
  | [] => false
  | c :: rest =>
    if isBlank c || isBreak c || indicators.contains c then false
    else if c = '-' then !endsWord rest
    else if c = '?' ∨ c = ':' then !between && !endsWord rest
    else true

/-- Whether a colon between brackets is followed by what may not follow it in a plain scalar. -/
def isStrayColon : List Char → Bool
  | [] => false
  | c :: _ => c == '?' || brackets.contains c

/-- Whether a plain scalar ends before the character `c`, which follows the gap, stands at a column
and comes before `rest`. In a block, its further lines have to start at the column `floor` or behind
it. -/
def endsPlain (between : Bool) (floor : Nat) (gap : Gap) (column : Nat) (c : Char)
    (rest : List Char) : Bool :=
  (gap.isBroken && (!between && column < floor || column == 0 && isMarker (c :: rest))) ||
    (c == '#' && !gap.isEmpty) || (c == ':' && endsWord rest) || (between && brackets.contains c)

/-- A scalar that has been read. -/
structure Reading where
  text : String
  /-- The place behind it, and behind the gap that it was not to be continued after. -/
  spot : Spot
  /-- Whether there is a break in that gap. -/
  isBroken : Bool

/-- Reads a plain scalar, what has been read of it before in reverse order. -/
def plainFrom (between : Bool) (floor : Nat) (gap : Gap) (done : List Char) :
    List Char → Mark → Option Reading
  | [], m => some ⟨String.ofList done.reverse, ⟨[], m⟩, gap.isBroken⟩
  | c :: rest, m =>
    if isBreak c then plainFrom between floor (gap.addBreak c) done rest (m.after c)
    else if isBlank c then
      if gap.isBroken ∧ m.column < floor ∧ c = '\t' then none
      else plainFrom between floor (gap.addBlank c) done rest (m.after c)
    else if endsPlain between floor gap m.column c rest then
      some ⟨String.ofList done.reverse, ⟨c :: rest, m⟩, gap.isBroken⟩
    else if between ∧ c = ':' ∧ isStrayColon rest then none
    else plainFrom between floor Gap.empty (c :: gap.onto done) rest (m.after c)

/-- The value of a hexadecimal digit. -/
def hexDigit? (c : Char) : Option Nat :=
  let n := c.toNat
  if 0x30 ≤ n ∧ n ≤ 0x39 then some (n - 0x30)
  else if 0x41 ≤ n ∧ n ≤ 0x46 then some (n - 0x37)
  else if 0x61 ≤ n ∧ n ≤ 0x66 then some (n - 0x57)
  else none

/-- The characters that a letter behind a backslash stands for. -/
def escapes : List (Char × Nat) :=
  [('0', 0x00), ('a', 0x07), ('b', 0x08), ('t', 0x09), ('\t', 0x09), ('n', 0x0A), ('v', 0x0B),
    ('f', 0x0C), ('r', 0x0D), ('e', 0x1B), (' ', 0x20), ('"', 0x22), ('/', 0x2F), ('\\', 0x5C),
    ('N', 0x85), ('_', 0xA0), ('L', 0x2028), ('P', 0x2029)]

/-- How many hexadecimal digits follow a letter behind a backslash. -/
def hexLength? (c : Char) : Option Nat :=
  if c = 'x' then some 2 else if c = 'u' then some 4 else if c = 'U' then some 8 else none

/-- The character of a number, if there is one. -/
def charOf? (n : Nat) : Option Char := if n.isValidChar then some (Char.ofNat n) else none

/-- What the next character of a scalar between quotes is. -/
inductive QuoteState where
  | text
  /-- Behind a backslash. -/
  | escape
  /-- One of the hexadecimal digits of a character: how many are left, and their value so far. -/
  | hex (left value : Nat)
  /-- Behind an apostrophe, which ends the scalar unless there is a second one. -/
  | apostrophe

/-- The apostrophe. -/
def apostrophe : Char := Char.ofNat 0x27

/-- Reads a scalar between double quotes or between apostrophes, from behind the first of them. -/
def quotedFrom (double : Bool) (state : QuoteState) (gap : Gap) (done : List Char) :
    List Char → Mark → Option Reading
  | [], m =>
    match state with
    | .apostrophe => some ⟨String.ofList done.reverse, ⟨[], m⟩, false⟩
    | _ => none
  | c :: rest, m =>
    match state with
    | .apostrophe =>
      if c = apostrophe then quotedFrom double .text Gap.empty (c :: done) rest (m.after c)
      else some ⟨String.ofList done.reverse, ⟨c :: rest, m⟩, false⟩
    | .escape =>
      if isBreak c then quotedFrom double .text Gap.escaped done rest (m.after c)
      else
        match hexLength? c, escapes.lookup c with
        | some length, _ => quotedFrom double (.hex length 0) gap done rest (m.after c)
        | none, some n => quotedFrom double .text gap (Char.ofNat n :: done) rest (m.after c)
        | none, none => none
    | .hex left value =>
      match hexDigit? c with
      | none => none
      | some digit =>
        let value := 16 * value + digit
        if 1 < left then quotedFrom double (.hex (left - 1) value) gap done rest (m.after c)
        else
          match charOf? value with
          | none => none
          | some char => quotedFrom double .text gap (char :: done) rest (m.after c)
    | .text =>
      if isBreak c then quotedFrom double .text (gap.addBreak c) done rest (m.after c)
      else if isBlank c then quotedFrom double .text (gap.addBlank c) done rest (m.after c)
      else if gap.isBroken ∧ m.column = 0 ∧ isMarker (c :: rest) then none
      else
        let done := gap.onto done
        if double then
          if c = '"' then some ⟨String.ofList done.reverse, ⟨rest, m.after c⟩, false⟩
          else if c = '\\' then quotedFrom double .escape Gap.empty done rest (m.after c)
          else quotedFrom double .text Gap.empty (c :: done) rest (m.after c)
        else if c = apostrophe then quotedFrom double .apostrophe Gap.empty done rest (m.after c)
        else quotedFrom double .text Gap.empty (c :: done) rest (m.after c)

namespace Spot

/-- Reads the plain scalar that is here. -/
def plain? (s : Spot) (between : Bool) (floor : Nat) : Option Reading :=
  if startsPlain between s.rest then plainFrom between floor Gap.empty [] s.rest s.mark else none

/-- Reads the scalar whose first quote is here. -/
def quoted? (s : Spot) (double : Bool) : Option Reading :=
  let inside := s.advance 1
  quotedFrom double .text Gap.empty [] inside.rest inside.mark

end Spot

end LetterToSound.Yaml
