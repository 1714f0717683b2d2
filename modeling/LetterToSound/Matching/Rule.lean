import LetterToSound.Language.Condition
import LetterToSound.Language.Database
import LetterToSound.Pattern.Stored
import LetterToSound.Text.Bytes

/-!
# Whether a rule fits

A stored pattern is read byte by byte, with three cursors in the text: the anchor goes forwards from
the place where the rule is tried, the right context forwards from where the anchor has come to, and
the left context backwards from the place. A byte stands for itself, a capital letter for the first
member of its class that fits; what a class has read is never taken back.
-/

/-!
## Places in a text

A text is read forwards and backwards from a place in it. So a place is kept as what stands behind
it, the nearest byte first, and what stands ahead.
-/

namespace LetterToSound

/-- A place in a text. -/
structure Place where
  /-- What has been read, the last byte first. -/
  behind : Bytes
  /-- What is still to be read. -/
  ahead : Bytes
deriving DecidableEq, Repr

namespace Place

def start (text : Bytes) : Place := ⟨[], text⟩

/-- The place before the byte of a number. -/
def ofPosition (text : Bytes) (position : Nat) : Place :=
  ⟨(text.take position).reverse, text.drop position⟩

/-- The number of bytes before a place. -/
def position (p : Place) : Nat := p.behind.length

/-- The text that a place is in. -/
def text (p : Place) : Bytes := p.behind.reverse ++ p.ahead

/-- Goes on by a number of bytes. -/
def advance (p : Place) (count : Nat) : Place :=
  ⟨(p.ahead.take count).reverse ++ p.behind, p.ahead.drop count⟩

@[simp] theorem text_start (t : Bytes) : (start t).text = t := by simp [start, text]

@[simp] theorem text_advance (p : Place) (count : Nat) : (p.advance count).text = p.text := by
  simp [advance, text]

theorem length_ahead_advance_lt {p : Place} {count : Nat} (hp : p.ahead ≠ []) (hc : count ≠ 0) :
    (p.advance count).ahead.length < p.ahead.length := by
  have := List.length_pos_iff.2 hp
  simp only [advance, List.length_drop]
  omega

end Place

/-!
## Tables by byte

A function of a byte whose values are computed once.
-/

/-- A value for every byte. -/
structure ByteTable (α : Type) where
  values : Vector α 256

namespace ByteTable

variable {α : Type}

def ofFn (f : UInt8 → α) : ByteTable α := ⟨Vector.ofFn fun i => f (UInt8.ofNat i)⟩

def get (t : ByteTable α) (b : UInt8) : α :=
  have := b.toNat_lt
  t.values[b.toNat]

@[simp] theorem get_ofFn (f : UInt8 → α) (b : UInt8) : (ofFn f).get b = f b := by
  simp [get, ofFn]

end ByteTable

end LetterToSound

/-!
## Reading a pattern
-/

namespace LetterToSound.Matching

open Pattern

/-- The part of a pattern that is being read. -/
inductive Phase where
  | anchor | right | left
deriving DecidableEq, Repr

/-- How far a pattern has been read. -/
structure Cursors where
  phase : Phase
  /-- The number of bytes that the anchor has read. -/
  consumed : Nat
  /-- What the anchor has not read. -/
  anchor : Bytes
  /-- What the right context has not read. -/
  right : Bytes
  /-- What the left context has not read, the nearest byte first. -/
  left : Bytes
deriving DecidableEq, Repr

/-- What rules refer to beside the text. -/
structure Setting where
  /-- The members of every class. -/
  classes : ByteTable (List Bytes)
  /-- The flags that guards ask for. -/
  flags : Array Bool

/-- The first of `members` that a text starts with: its length, and what follows it. -/
def firstMember (members : List Bytes) (text : Bytes) : Option (Nat × Bytes) :=
  members.findSome? fun m => (m.isPrefixOf? text).map fun rest => (m.length, rest)

namespace Cursors

def start (p : Place) : Cursors := ⟨.anchor, 0, p.ahead, p.ahead, p.behind⟩

/-- Starts the right context, behind the anchor. -/
def startRight (c : Cursors) : Cursors := { c with phase := .right, right := c.anchor }

/-- Starts the left context, before the place. -/
def startLeft (c : Cursors) (p : Place) : Cursors := { c with phase := .left, left := p.behind }

/-- Whether a context has come to its end of the text. An anchor never holds a boundary. -/
def atBoundary (c : Cursors) : Bool :=
  match c.phase with
  | .anchor => false
  | .right => c.right.isEmpty
  | .left => c.left.isEmpty

/-- Reads the first of `members` that fits. -/
def read (c : Cursors) (members : List Bytes) : Option Cursors :=
  match c.phase with
  | .anchor =>
    (firstMember members c.anchor).map fun (length, rest) =>
      { c with consumed := c.consumed + length, anchor := rest }
  | .right => (firstMember members c.right).map fun (_, rest) => { c with right := rest }
  | .left =>
    (firstMember (members.map List.reverse) c.left).map fun (_, rest) => { c with left := rest }

end Cursors

/-- Answers whether the text ahead of a cursor goes on as a list of features asks. -/
abbrev Lookahead (ε : Type) := Bytes → Bytes → Except ε Bool

variable {ε : Type}

/-- The answer to the question that starts with `b` and goes on in `rest`, and what follows it. Only
a right context asks, and only where there is somebody to answer. -/
def answer? (ask : Option (Lookahead ε)) (c : Cursors) (b : UInt8) (rest : Bytes) :
    Option (Except ε Bool × Bytes) :=
  match ask, c.phase with
  | some ask, .right =>
    if b = openLookahead then
      (Explicit.splitGroup? rest).map fun (list, tail) => (ask c.right list, tail)
    else none
  | _, _ => none

theorem length_answer?_lt {ask : Option (Lookahead ε)} {c : Cursors} {b : UInt8} {rest tail : Bytes}
    {answer : Except ε Bool} (h : answer? ask c b rest = some (answer, tail)) :
    tail.length < rest.length := by
  unfold answer? at h
  split at h
  · split at h
    · simp only [Option.map_eq_some_iff, Prod.mk.injEq] at h
      obtain ⟨⟨list, behind⟩, hsplit, _, rfl⟩ := h
      exact Explicit.length_splitGroup?_lt hsplit
    · cases h
  · cases h

/-- The strings that a byte of a pattern stands for. -/
def Setting.members (s : Setting) (b : UInt8) : List Bytes :=
  if isClassId b then s.classes.get b else [[b]]

/-- Reads a pattern without its guard. The result is the number of bytes that the anchor reads; none
if the pattern does not fit. -/
def readPattern (s : Setting) (ask : Option (Lookahead ε)) (p : Place) (c : Cursors) :
    Bytes → Except ε (Option Nat)
  | [] => .ok (some c.consumed)
  | b :: rest =>
    if b = rightMark then readPattern s ask p c.startRight rest
    else if b = leftMark then readPattern s ask p (c.startLeft p) rest
    else if b = boundary then
      if c.atBoundary then readPattern s ask p c rest else .ok none
    else match _h : answer? ask c b rest with
      | some (.error e, _) => .error e
      | some (.ok true, tail) => readPattern s ask p c tail
      | some (.ok false, _) => .ok none
      | none =>
        match c.read (s.members b) with
        | some c => readPattern s ask p c rest
        | none => .ok none
termination_by pattern => pattern.length
decreasing_by
  · exact Nat.lt_succ_self _
  · exact Nat.lt_succ_self _
  · exact Nat.lt_succ_self _
  · exact Nat.lt_succ_of_lt (length_answer?_lt _h)
  · exact Nat.lt_succ_self _

/-- Whether the guard in front of a pattern, if there is one, lets the rule be tried. -/
def Setting.admits (s : Setting) (pattern : Bytes) : Bool :=
  match pattern with
  | [] => true
  | b :: rest =>
    match Polarity.ofByte? b, rest with
    | none, _ => true
    | some _, [] => false
    | some polarity, id :: _ => Language.Condition.isSet s.flags id == (polarity == .set)

/-- Tries a rule at a place. The result is the number of bytes that it replaces; none if it does not
fit. -/
def fit (s : Setting) (ask : Option (Lookahead ε)) (p : Place) (pattern : Bytes) :
    Except ε (Option Nat) :=
  if s.admits pattern then readPattern s ask p (Cursors.start p) (StoredPattern.body pattern)
  else .ok none

/-- A rule that fits at a place. -/
structure Match where
  /-- The number of bytes that it replaces. -/
  length : Nat
  replacement : Bytes
deriving DecidableEq, Repr

/-- The first rule of a list that fits at a place. -/
def firstMatch (s : Setting) (ask : Option (Lookahead ε)) (p : Place) :
    List (Bytes × Bytes) → Except ε (Option Match)
  | [] => .ok none
  | (pattern, replacement) :: rules =>
    match fit s ask p pattern with
    | .error e => .error e
    | .ok (some length) => .ok (some ⟨length, replacement⟩)
    | .ok none => firstMatch s ask p rules

/-!
## Rules by group

The rules that may fit at a place are those of the group that the next byte names. Of two groups of
a name the first one counts.
-/

/-- The rules of every group, as patterns and replacements. -/
abbrev RuleTable := ByteTable (List (Bytes × Bytes))

namespace RuleTable

open LetterToSound.Language

/-- The rules of the groups of a database. -/
def ofGroups (db : Database) (groups : List NamedTable) : RuleTable :=
  .ofFn fun b =>
    match groups.find? (·.id = b) with
    | some group => db.rules group
    | none => []

/-- The first rule that fits at a place; none at the end of the text. -/
def find {ε : Type} (rules : RuleTable) (s : Setting) (ask : Option (Lookahead ε)) (p : Place) :
    Except ε (Option Match) :=
  match p.ahead with
  | [] => .ok none
  | b :: _ => firstMatch s ask p (rules.get b)

end RuleTable

namespace Setting

/-- The classes of a database, and its flags for a locale. -/
def ofDatabase (db : Language.Database) (locale : String) : Setting :=
  ⟨.ofFn db.members, Language.Condition.flags db.conditions locale⟩

end Setting

end LetterToSound.Matching
