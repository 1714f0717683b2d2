import LetterToSound.Yaml.Block
import LetterToSound.Yaml.Scalar

/-!
# The layout of YAML texts

Which blocks there are is said by columns: a block starts where an item or a key stands further to
the right than the block around, and ends where something stands further to the left. Whether
something is a key shows only at the colon behind it. So every place where a key may start is
remembered, and the tokens for the key go there when the colon comes; the colon has to stand on the
line of the key, and near enough.
-/

/-!
## Tokens

The scalars of a text, and the marks of its structure. Blocks have no marks of their own where they
end, and often none where they start; they have tokens all the same.
-/

namespace LetterToSound.Yaml

inductive Token where
  | documentStart
  | documentEnd
  | blockSequence
  | blockMapping
  /-- The end of a block. -/
  | blockEnd
  /-- Before an item of a block. -/
  | item
  | key
  | value
  | openSequence
  | closeSequence
  | openMapping
  | closeMapping
  | comma
  /-- A text, and whether it is written without quotes. -/
  | scalar (plain : Bool) (text : String)
deriving DecidableEq, Repr

/-!
## Blocks and keys
-/

/-- A place where a key may have started. -/
structure KeyPlace where
  mark : Mark
  /-- The number of tokens before it. -/
  tokens : Nat
  /-- Whether there has to be a key. -/
  required : Bool
deriving DecidableEq, Repr

namespace KeyPlace

/-- The greatest number of bytes from the start of a key to its colon. -/
def maxLength : Nat := 1024

/-- Whether a key that starts here may have its colon at a place. -/
def reaches (k : KeyPlace) (m : Mark) : Bool :=
  k.mark.line == m.line && m.offset ≤ k.mark.offset + maxLength

/-- Whether there has to be a key, and it cannot have its colon at a place any more. -/
def isMissed (m : Mark) (place : Option KeyPlace) : Bool :=
  place.any fun k => k.required && !k.reaches m

end KeyPlace

/-- What has been read of a text. -/
structure Layout where
  spot : Spot
  /-- The tokens before, the last one first. -/
  tokens : List Token
  /-- The number of tokens before. -/
  count : Nat
  /-- For every block that is open, the inner ones first: one more than the column that it stands
  at. -/
  floors : List Nat
  /-- Whether a key may start here. -/
  keys : Bool
  /-- Where a key may have started. -/
  place : Option KeyPlace
  /-- Where a key may have started before each bracket that is open, the inner ones first. -/
  outer : List (Option KeyPlace)

namespace Layout

def start (text : List Char) : Layout := ⟨Spot.start text, [], 0, [], true, none, []⟩

/-- Whether a bracket is open. -/
def isBetween (l : Layout) : Bool := !l.outer.isEmpty

/-- The least column of what stands in the innermost block. -/
def floor (l : Layout) : Nat := l.floors.headD 0

/-- The column of what comes next, plus one. -/
def level (l : Layout) : Nat := l.spot.mark.column + 1

def push (l : Layout) (t : Token) : Layout :=
  { l with tokens := t :: l.tokens, count := l.count + 1 }

/-- Puts a token behind the first `place` ones. -/
def insert (l : Layout) (place : Nat) (t : Token) : Layout :=
  let behind := l.count - place
  { l with tokens := l.tokens.take behind ++ t :: l.tokens.drop behind, count := l.count + 1 }

/-- Goes on by a number of characters. -/
def advance (l : Layout) (count : Nat) : Layout := { l with spot := l.spot.advance count }

/-- Goes on to the next character that is neither blank nor in a comment. Where a key may start, a
tab is no blank. -/
def skipFrom (between keys comment : Bool) : List Char → Mark → Spot × Bool
  | [], m => (⟨[], m⟩, keys)
  | c :: rest, m =>
    if isBreak c then skipFrom between (keys || !between) false rest (m.after c)
    else if comment then skipFrom between keys true rest (m.after c)
    else if c = ' ' ∨ (c = '\t' ∧ (between || !keys)) ∨ (c = byteOrderMark ∧ m.column = 0) then
      skipFrom between keys false rest (m.after c)
    else if c = '#' then skipFrom between keys true rest (m.after c)
    else (⟨c :: rest, m⟩, keys)

/-- Goes on to what comes next; none if a key was missed on the way. -/
def skip? (l : Layout) : Option Layout :=
  let (spot, keys) := skipFrom l.isBetween l.keys false l.spot.rest l.spot.mark
  if (l.place :: l.outer).any (KeyPlace.isMissed spot.mark) then none
  else some { l with spot, keys }

/-- Ends the blocks that do not reach down to a level. Between brackets there are none. -/
def close (l : Layout) (level : Nat) : Layout :=
  if l.isBetween then l
  else
    let ended := l.floors.takeWhile (level < ·)
    { l with
      tokens := List.replicate ended.length Token.blockEnd ++ l.tokens
      count := l.count + ended.length
      floors := l.floors.dropWhile (level < ·) }

/-- Starts a block behind the first `place` tokens, unless the innermost one stands at the level or
further to the right. -/
def openBlock (l : Layout) (level place : Nat) (t : Token) : Layout :=
  if l.isBetween || decide (level ≤ l.floor) then l
  else { l.insert place t with floors := level :: l.floors }

/-- Gives up the place where a key may have started. -/
def leavePlace? (l : Layout) : Option Layout :=
  if l.place.any KeyPlace.required then none else some { l with place := none }

/-- Remembers that a key may start here. In a block that stands at this column there has to be
one. -/
def savePlace? (l : Layout) : Option Layout :=
  if l.keys then
    l.leavePlace?.map fun l =>
      let required := !l.isBetween && decide (l.level = l.floor)
      { l with place := some ⟨l.spot.mark, l.count, required⟩ }
  else some l

/-- Takes the mark that starts or ends a document. -/
def document? (l : Layout) (t : Token) : Option Layout :=
  (l.close 0).leavePlace?.map fun l => { (l.push t).advance 3 with keys := false }

/-- Takes an opening bracket, which may start a key. -/
def bracket? (l : Layout) (t : Token) : Option Layout :=
  l.savePlace?.map fun l =>
    { (l.push t).advance 1 with keys := true, place := none, outer := l.place :: l.outer }

/-- Takes a closing bracket. -/
def unbracket? (l : Layout) (t : Token) : Option Layout :=
  l.leavePlace?.map fun l =>
    let closed := { (l.push t).advance 1 with keys := false }
    match l.outer with
    | [] => closed
    | place :: outer => { closed with place, outer }

def comma? (l : Layout) : Option Layout :=
  l.leavePlace?.map fun l => { (l.push .comma).advance 1 with keys := true }

/-- Takes the dash before an item. In a block it has to stand where a key could start. -/
def item? (l : Layout) : Option Layout :=
  if !l.isBetween && !l.keys then none
  else
    (l.openBlock l.level l.count .blockSequence).leavePlace?.map fun l =>
      { (l.push .item).advance 1 with keys := true }

/-- Takes the mark before a key. In a block it has to stand where a key could start. -/
def key? (l : Layout) : Option Layout :=
  if !l.isBetween && !l.keys then none
  else
    (l.openBlock l.level l.count .blockMapping).leavePlace?.map fun l =>
      { (l.push .key).advance 1 with keys := !l.isBetween }

/-- Takes the colon before a value. If the place of its key is remembered, the key starts there, and
perhaps a block with it. Else it has to stand where a key could start. -/
def value? (l : Layout) : Option Layout :=
  match l.place.filter (KeyPlace.reaches · l.spot.mark) with
  | some k =>
    let opened := (l.insert k.tokens .key).openBlock (k.mark.column + 1) k.tokens .blockMapping
    some { (opened.push .value).advance 1 with keys := false, place := none }
  | none =>
    if !l.isBetween && !l.keys then none
    else
      let opened := l.openBlock l.level l.count .blockMapping
      some { (opened.push .value).advance 1 with keys := !l.isBetween }

/-- Takes a scalar, which may start a key. -/
def scalar? (l : Layout) (plain : Bool) (read : Spot → Option Reading) : Option Layout := do
  let l ← l.savePlace?
  let r ← read l.spot
  return { l.push (.scalar plain r.text) with spot := r.spot, keys := r.isBroken }

/-- Takes a block scalar. -/
def block? (l : Layout) (folded : Bool) : Option Layout := do
  let l ← l.leavePlace?
  let (text, spot) ← l.spot.block? folded l.floor
  return { l.push (.scalar false text) with spot, keys := true }

/-- Takes the token that starts with the character `c`, which comes before `rest`. -/
def take? (l : Layout) (c : Char) (rest : List Char) : Option Layout :=
  if l.spot.mark.column = 0 ∧ isMarkerOf '-' (c :: rest) then l.document? .documentStart
  else if l.spot.mark.column = 0 ∧ isMarkerOf '.' (c :: rest) then l.document? .documentEnd
  else if c = '[' then l.bracket? .openSequence
  else if c = '\x7b' then l.bracket? .openMapping
  else if c = ']' then l.unbracket? .closeSequence
  else if c = '\x7d' then l.unbracket? .closeMapping
  else if c = ',' then l.comma?
  else if c = '-' ∧ endsWord rest then l.item?
  else if c = '?' ∧ (l.isBetween || endsWord rest) then l.key?
  else if c = ':' ∧ (l.isBetween || endsWord rest) then l.value?
  else if (c = '|' ∨ c = '>') ∧ !l.isBetween then l.block? (c == '>')
  else if c = '"' then l.scalar? false (Spot.quoted? · true)
  else if c = apostrophe then l.scalar? false (Spot.quoted? · false)
  else l.scalar? true (Spot.plain? · l.isBetween l.floor)

/-- The tokens of the rest of a text in at most `steps` steps; none if it is not well formed. -/
def tokensFrom : Nat → Layout → Option (List Token)
  | 0, _ => none
  | steps + 1, l =>
    match l.skip? with
    | none => none
    | some l =>
      match l.spot.rest with
      | [] => (l.close 0).leavePlace?.map fun l => l.tokens.reverse
      | c :: rest =>
        match (l.close l.level).take? c rest with
        | none => none
        | some l => tokensFrom steps l

end Layout

/-- The tokens of a text; none if it is not well formed. Every token takes a character, so there are
no more steps than characters, and one at the end. -/
def tokens? (text : List Char) : Option (List Token) :=
  Layout.tokensFrom (text.length + 1) (Layout.start text)

end LetterToSound.Yaml
