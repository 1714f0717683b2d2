import LetterToSound.Yaml.Layout

/-!
# YAML documents

The value that the tokens of a document stand for. A text with more than one document, or with
anchors, tags or directives, is not read.
-/

/-!
## Values
-/

namespace LetterToSound.Yaml

/-- A value. -/
inductive Node where
  /-- A text, and whether it is written without quotes. -/
  | scalar (plain : Bool) (text : String)
  | sequence (items : List Node)
  | mapping (entries : List (Node × Node))
deriving Inhabited

/-- Whether a text without quotes says that there is no value. -/
def isNull (text : String) : Bool := ["", "~", "null", "Null", "NULL"].contains text

namespace Node

/-- The value that is not written at all. -/
def empty : Node := .scalar true ""

/-- The text of a scalar. -/
def text? : Node → Option String
  | scalar _ text => some text
  | _ => none

/-- The text of a scalar that may say that there is no value. -/
def optional? : Node → Option (Option String)
  | scalar plain text => some (if plain && isNull text then none else some text)
  | _ => none

/-- The entries of a mapping whose keys are scalars. Where nothing is written there are none. -/
def fields? : Node → Option (List (String × Node))
  | mapping entries => entries.mapM fun (key, value) => key.text?.map fun name => (name, value)
  | scalar true "" => some []
  | _ => none

end Node

/-!
## Reading values from tokens
-/

/-- Whether a character may stand in a document. -/
def isAllowed (c : Char) : Bool :=
  let n := c.toNat
  n == 0x09 || n == 0x0A || n == 0x0D || (0x20 ≤ n && n ≤ 0x7E) || n == 0x85 ||
    (0xA0 ≤ n && n ≤ 0xFFFD) || 0x10000 ≤ n

namespace Node

/-- Whether a key or a value in a block is left out before these tokens. -/
def isLeftOut : List Token → Bool
  | .key :: _ => true
  | .value :: _ => true
  | .blockEnd :: _ => true
  | _ => false

/-- Whether an item of a block is left out before these tokens. -/
def isItemLeftOut : List Token → Bool
  | .item :: _ => true
  | .blockEnd :: _ => true
  | _ => false

/-- Whether a part between brackets, the second of which is `close`, ends before these tokens. -/
def isPartEnd (close : Token) : List Token → Bool
  | [] => false
  | t :: _ => t == .comma || t == close

/-- Whether a key between brackets is left out before these tokens. -/
def isKeyLeftOut (close : Token) (tokens : List Token) : Bool :=
  tokens.head? == some .value || isPartEnd close tokens

/-- Goes behind the comma before anything but the first part between brackets. -/
def behindComma? (first : Bool) (tokens : List Token) : Option (List Token) :=
  if first then some tokens
  else match tokens with
    | .comma :: rest => some rest
    | _ => none

mutual

/-- Reads a value. `block` says whether it may be a block, and `items` whether it may be items that
stand at the column of the keys around them. -/
def read? : Nat → Bool → Bool → List Token → Option (Node × List Token)
  | 0, _, _, _ => none
  | steps + 1, block, items, tokens =>
    match tokens with
    | .scalar plain text :: rest => some (.scalar plain text, rest)
    | .openSequence :: rest => sequence? steps true [] rest
    | .openMapping :: rest => mapping? steps true [] rest
    | .item :: _ => if items then loose? steps [] tokens else none
    | .blockSequence :: rest => if block then items? steps [] rest else none
    | .blockMapping :: rest => if block then entries? steps [] rest else none
    | _ => none

/-- Reads the items of a block, those before in reverse order. -/
def items? : Nat → List Node → List Token → Option (Node × List Token)
  | 0, _, _ => none
  | steps + 1, done, tokens =>
    match tokens with
    | .blockEnd :: rest => some (.sequence done.reverse, rest)
    | .item :: rest =>
      if isItemLeftOut rest then items? steps (empty :: done) rest
      else
        match read? steps true false rest with
        | none => none
        | some (node, rest) => items? steps (node :: done) rest
    | _ => none

/-- Reads items that stand at the column of the keys around them, those before in reverse order. -/
def loose? : Nat → List Node → List Token → Option (Node × List Token)
  | 0, _, _ => none
  | steps + 1, done, tokens =>
    match tokens with
    | .item :: rest =>
      if isItemLeftOut rest || isLeftOut rest then loose? steps (empty :: done) rest
      else
        match read? steps true false rest with
        | none => none
        | some (node, rest) => loose? steps (node :: done) rest
    | _ => some (.sequence done.reverse, tokens)

/-- Reads a key or a value in a block, which may be left out. -/
def part? : Nat → List Token → Option (Node × List Token)
  | 0, _ => none
  | steps + 1, tokens =>
    if isLeftOut tokens then some (empty, tokens) else read? steps true true tokens

/-- Reads the entries of a block, those before in reverse order. -/
def entries? : Nat → List (Node × Node) → List Token → Option (Node × List Token)
  | 0, _, _ => none
  | steps + 1, done, tokens =>
    match tokens with
    | .blockEnd :: rest => some (.mapping done.reverse, rest)
    | .key :: rest =>
      match part? steps rest with
      | none => none
      | some (key, .value :: rest) =>
        match part? steps rest with
        | none => none
        | some (value, rest) => entries? steps ((key, value) :: done) rest
      | some (key, rest) => entries? steps ((key, empty) :: done) rest
    | _ => none

/-- Reads the value behind a key between brackets, which may be left out. -/
def valueBetween? : Nat → Token → List Token → Option (Node × List Token)
  | 0, _, _ => none
  | steps + 1, close, tokens =>
    match tokens with
    | .value :: rest =>
      if isPartEnd close rest then some (empty, rest) else read? steps false false rest
    | _ => some (empty, tokens)

/-- Reads a key in a sequence between brackets. One that is left out takes a token with it. -/
def keyInSequence? : Nat → List Token → Option (Node × List Token)
  | 0, _ => none
  | steps + 1, tokens =>
    if isKeyLeftOut .closeSequence tokens then some (empty, tokens.tail)
    else read? steps false false tokens

/-- Reads a key in a mapping between brackets, which may be left out. -/
def keyInMapping? : Nat → List Token → Option (Node × List Token)
  | 0, _ => none
  | steps + 1, tokens =>
    if isKeyLeftOut .closeMapping tokens then some (empty, tokens)
    else read? steps false false tokens

/-- Reads the items of a sequence between brackets, those before in reverse order. A pair among them
is a mapping of one entry. -/
def sequence? : Nat → Bool → List Node → List Token → Option (Node × List Token)
  | 0, _, _, _ => none
  | steps + 1, first, done, tokens =>
    match tokens with
    | .closeSequence :: rest => some (.sequence done.reverse, rest)
    | _ =>
      match behindComma? first tokens with
      | none => none
      | some (.closeSequence :: rest) => some (.sequence done.reverse, rest)
      | some (.key :: rest) =>
        match keyInSequence? steps rest with
        | none => none
        | some (key, rest) =>
          match valueBetween? steps .closeSequence rest with
          | none => none
          | some (value, rest) => sequence? steps false (.mapping [(key, value)] :: done) rest
      | some rest =>
        match read? steps false false rest with
        | none => none
        | some (node, rest) => sequence? steps false (node :: done) rest

/-- Reads the entries of a mapping between brackets, those before in reverse order. -/
def mapping? : Nat → Bool → List (Node × Node) → List Token → Option (Node × List Token)
  | 0, _, _, _ => none
  | steps + 1, first, done, tokens =>
    match tokens with
    | .closeMapping :: rest => some (.mapping done.reverse, rest)
    | _ =>
      match behindComma? first tokens with
      | none => none
      | some (.closeMapping :: rest) => some (.mapping done.reverse, rest)
      | some (.key :: rest) =>
        match keyInMapping? steps rest with
        | none => none
        | some (key, rest) =>
          match valueBetween? steps .closeMapping rest with
          | none => none
          | some (value, rest) => mapping? steps false ((key, value) :: done) rest
      | some rest =>
        match read? steps false false rest with
        | none => none
        | some (key, rest) => mapping? steps false ((key, empty) :: done) rest

end

/-- The value of a document behind its mark, and the tokens behind it. -/
def ofContent? (tokens : List Token) : Option (Node × List Token) :=
  match tokens with
  | [] => some (empty, [])
  | .documentStart :: _ => some (empty, tokens)
  | .documentEnd :: _ => some (empty, tokens)
  | _ => read? (4 * tokens.length + 4) true false tokens

/-- The value that tokens stand for; none if they are not those of one document. -/
def ofTokens? (tokens : List Token) : Option Node :=
  let content := match tokens with
    | [] => some (empty, [])
    | .documentStart :: rest => ofContent? rest
    | _ => read? (4 * tokens.length + 4) true false tokens
  match content with
  | none => none
  | some (node, rest) => if rest.all (· == .documentEnd) then some node else none

end Node

/-- The value of a document; none if the text is not one document of this form. -/
def read (text : String) : Option Node :=
  if text.toList.all isAllowed then (tokens? (unifyBreaks text.toList)).bind Node.ofTokens?
  else none

end LetterToSound.Yaml
