import LetterToSound.Source.Token

/-!
# From a source to its tokens

A source is read in one loop. It stands at a byte, knows the place of that byte, and knows whether the
line goes on behind the token that has been read last. In each turn it passes a blank, the end of a line
or a comment, or it leaves the bytes ahead to the reader of a directive, of phonemes, of a quoted string
or of a word. Nothing but the bytes that a reader stops at keeps a token on its line: every reader has
its own, and the ends of lines are among them. What is misspelled is reported, and the rest of its line
is passed over.
-/

namespace LetterToSound

namespace Source

def lineFeed : UInt8 := 0x0A
def carriageReturn : UInt8 := 0x0D
def space : UInt8 := 0x20
def tab : UInt8 := 0x09
def numberSign : UInt8 := 0x23
def point : UInt8 := 0x2E
def slash : UInt8 := 0x2F
def quote : UInt8 := 0x22

def isBlank (b : UInt8) : Bool := b == space || b == tab

/-- The bytes that end a line. -/
def isLineEnd (b : UInt8) : Bool := b == lineFeed || b == carriageReturn

/-- Whether a byte goes on with a word, or with the name of a directive. -/
def isWord (b : UInt8) : Bool := !isBlank b && !isLineEnd b && b != numberSign

/-- Whether a byte may stand between slashes. -/
def isPhonemic (b : UInt8) : Bool := b != slash && !isLineEnd b && b != tab && b != numberSign

/-- Whether a byte may stand between quotes. -/
def isQuotable (b : UInt8) : Bool := b != quote && !isLineEnd b && b != tab

/-- Whether a byte goes on with the value of a directive that has no quotes. -/
def isValue (b : UInt8) : Bool := !isLineEnd b && b != numberSign

/-- Takes blanks away at the end. -/
def trimEnd (text : Bytes) : Bytes := (text.reverse.dropWhile isBlank).reverse

end Source

/-- The place behind a byte. -/
def Position.after (p : Position) (b : UInt8) : Position :=
  if b = Source.lineFeed then ⟨p.line + 1, 1⟩ else ⟨p.line, p.column + 1⟩

namespace Source

/-- Where reading stands: the bytes from there on, and the place of the first of them. -/
structure Spot where
  ahead : Bytes
  position : Position
deriving DecidableEq, Repr

namespace Spot

/-- The start of a source. -/
def start (source : Bytes) : Spot := ⟨source, ⟨1, 1⟩⟩

/-- Passes bytes one by one, as long as they are allowed. -/
def pass (allowed : UInt8 → Bool) (position : Position) : Bytes → Spot
  | [] => ⟨[], position⟩
  | b :: ahead => if allowed b then pass allowed (position.after b) ahead else ⟨b :: ahead, position⟩

/-- The first place ahead with a byte that is not allowed, or the end of the source. -/
def skip (s : Spot) (allowed : UInt8 → Bool) : Spot := pass allowed s.position s.ahead

/-- The place behind the next byte. -/
def advance (s : Spot) : Spot :=
  match s.ahead with
  | [] => s
  | b :: ahead => ⟨ahead, s.position.after b⟩

end Spot

/-- What a turn of the loop reads and reports, where it stops, and whether the line goes on there. On a
line that goes on a point is an ordinary byte. -/
structure Turn where
  tokens : List Token
  diagnostics : List Diagnostic
  spot : Spot
  continues : Bool

/-- Reports a token that is misspelled, and passes over what is left of its line. -/
def report (fault : LexicalFault) (position : Position) (s : Spot) : Turn :=
  ⟨[], [⟨fault, position⟩], s.skip fun b => !isLineEnd b, false⟩

/-- Reads a token between two equal delimiters, standing at the first one. It has to be closed before a
byte that may not stand in it. -/
def readEnclosed (kind : TokenKind) (fault : LexicalFault) (allowed : UInt8 → Bool)
    (delimiter : UInt8) (s : Spot) : Turn :=
  let inside := s.advance
  let behind := inside.skip allowed
  if behind.ahead.head? = some delimiter then
    ⟨[⟨kind, inside.ahead.takeWhile allowed, s.position⟩], [], behind.advance, true⟩
  else report fault s.position behind

def readPhonemes (s : Spot) : Turn := readEnclosed .phonemes .unclosedPhonemes isPhonemic slash s

def readQuoted (kind : TokenKind) (s : Spot) : Turn :=
  readEnclosed kind .unclosedString isQuotable quote s

/-- Reads a word. The line goes on behind it only after a tab. -/
def readText (s : Spot) : Turn :=
  let behind := s.skip isWord
  ⟨[⟨.text, s.ahead.takeWhile isWord, s.position⟩], [], behind, behind.ahead.head? = some tab⟩

/-- Reads a value without quotes: what is left of the line before a comment, and without the blanks in
front of that. -/
def readValue (s : Spot) : Turn :=
  ⟨[⟨.directiveBody, trimEnd (s.ahead.takeWhile isValue), s.position⟩], [], s.skip isValue, false⟩

/-- Reads the value of a directive. The line does not go on behind it. -/
def readBody (b : UInt8) (s : Spot) : Turn :=
  if b = quote then { readQuoted .directiveBody s with continues := false } else readValue s

/-- Reads a directive. Without a value behind its name it is no token. -/
def readDirective (s : Spot) : Turn :=
  let name := s.ahead.takeWhile isWord
  let body := (s.skip isWord).skip isBlank
  match body.ahead with
  | [] => report .missingBody s.position body
  | b :: _ =>
    if isLineEnd b || b == numberSign then report .missingBody s.position body
    else
      let turn := readBody b body
      { turn with tokens := ⟨.directive, name, s.position⟩ :: turn.tokens }

/-- A turn of the loop at the byte `b`. -/
def turn (continues : Bool) (b : UInt8) (s : Spot) : Turn :=
  if continues then
    if isBlank b then ⟨[], [], s.advance, true⟩
    else if isLineEnd b || b == numberSign then ⟨[], [], s, false⟩
    else if b = slash then readPhonemes s
    else if b = quote then readQuoted .quoted s
    else readText s
  else if isBlank b || isLineEnd b then ⟨[], [], s.advance, false⟩
  else if b = numberSign then ⟨[], [], s.skip fun b => !isLineEnd b, false⟩
  else if b = point then readDirective s
  else if b = slash then readPhonemes s
  else if b = quote then readQuoted .quoted s
  else readText s

namespace Spot

theorem ahead_pass (allowed : UInt8 → Bool) (position : Position) (bytes : Bytes) :
    (pass allowed position bytes).ahead = bytes.dropWhile allowed := by
  induction bytes generalizing position with
  | nil => rfl
  | cons b bytes ih =>
    rw [pass, List.dropWhile_cons]
    split
    · exact ih _
    · rfl

theorem ahead_skip (s : Spot) (allowed : UInt8 → Bool) :
    (s.skip allowed).ahead = s.ahead.dropWhile allowed := ahead_pass allowed s.position s.ahead

theorem length_skip_le (s : Spot) (allowed : UInt8 → Bool) :
    (s.skip allowed).ahead.length ≤ s.ahead.length := by
  rw [ahead_skip]
  exact (List.dropWhile_sublist allowed).length_le

theorem length_advance_le (s : Spot) : s.advance.ahead.length ≤ s.ahead.length := by
  unfold advance
  split <;> simp [*]

variable {s : Spot} {b : UInt8} {rest : Bytes}

theorem length_advance_lt (h : s.ahead = b :: rest) : s.advance.ahead.length < s.ahead.length := by
  simp [advance, h]

theorem length_skip_lt {allowed : UInt8 → Bool} (h : s.ahead = b :: rest) (hb : allowed b = true) :
    (s.skip allowed).ahead.length < s.ahead.length := by
  rw [ahead_skip, h, List.dropWhile_cons, if_pos hb]
  exact Nat.lt_succ_of_le (List.dropWhile_sublist allowed).length_le

end Spot

section Progress

variable {s : Spot} {b : UInt8} {rest : Bytes}

theorem length_report_le (fault : LexicalFault) (position : Position) (s : Spot) :
    (report fault position s).spot.ahead.length ≤ s.ahead.length := s.length_skip_le _

theorem length_readEnclosed_lt (kind : TokenKind) (fault : LexicalFault) (allowed : UInt8 → Bool)
    (delimiter : UInt8) (h : s.ahead = b :: rest) :
    (readEnclosed kind fault allowed delimiter s).spot.ahead.length < s.ahead.length := by
  have hinside := Spot.length_advance_lt h
  have hbehind := s.advance.length_skip_le allowed
  simp only [readEnclosed]
  split
  · exact Nat.lt_of_le_of_lt (s.advance.skip allowed).length_advance_le (by omega)
  · exact Nat.lt_of_le_of_lt (length_report_le fault s.position _) (by omega)

theorem length_readBody_le (h : s.ahead = b :: rest) :
    (readBody b s).spot.ahead.length ≤ s.ahead.length := by
  unfold readBody
  split
  · exact Nat.le_of_lt (length_readEnclosed_lt _ _ _ _ h)
  · exact s.length_skip_le isValue

theorem length_readDirective_lt (h : s.ahead = b :: rest) (hb : isWord b = true) :
    (readDirective s).spot.ahead.length < s.ahead.length := by
  have hname := Spot.length_skip_lt h hb
  have hbody := (s.skip isWord).length_skip_le isBlank
  simp only [readDirective]
  split
  · exact Nat.lt_of_le_of_lt (length_report_le .missingBody s.position _) (by omega)
  · rename_i c rest' hahead
    split
    · exact Nat.lt_of_le_of_lt (length_report_le .missingBody s.position _) (by omega)
    · exact Nat.lt_of_le_of_lt (length_readBody_le hahead) (by omega)

/-- A turn passes a byte, unless it only finds that the line does not go on. -/
theorem turn_progress (continues : Bool) (h : s.ahead = b :: rest) :
    (turn continues b s).spot.ahead.length < s.ahead.length ∨
      continues = true ∧ (turn continues b s).continues = false ∧
        (turn continues b s).spot.ahead.length = s.ahead.length := by
  have hword (hblank : isBlank b = false) (hline : isLineEnd b = false) (hsign : b ≠ numberSign) :
      isWord b = true := by simp [isWord, hblank, hline, hsign]
  cases continues with
  | true =>
    simp only [turn, if_true]
    split
    · exact .inl (Spot.length_advance_lt h)
    rename_i hblank
    split
    · exact .inr ⟨trivial, rfl, rfl⟩
    rename_i hends
    simp only [Bool.not_eq_true, Bool.or_eq_false_iff, beq_eq_false_iff_ne] at hblank hends
    split
    · exact .inl (length_readEnclosed_lt _ _ _ _ h)
    split
    · exact .inl (length_readEnclosed_lt _ _ _ _ h)
    · exact .inl (Spot.length_skip_lt h (hword hblank hends.1 hends.2))
  | false =>
    refine .inl ?_
    simp only [turn, Bool.false_eq_true, if_false]
    split
    · exact Spot.length_advance_lt h
    rename_i hpassed
    simp only [Bool.not_eq_true, Bool.or_eq_false_iff] at hpassed
    split
    · exact Spot.length_skip_lt h (by simp [hpassed.2])
    rename_i hsign
    have hb := hword hpassed.1 hpassed.2 hsign
    split
    · exact length_readDirective_lt h hb
    split
    · exact length_readEnclosed_lt _ _ _ _ h
    split
    · exact length_readEnclosed_lt _ _ _ _ h
    · exact Spot.length_skip_lt h hb

end Progress

/-- What a source has been read as, and the place of its end. -/
structure Lexed where
  tokens : List Token
  diagnostics : List Diagnostic
  finish : Position
deriving DecidableEq, Repr

/-- The loop, with what has been read before in reverse order. -/
def lexRest (tokens : List Token) (diagnostics : List Diagnostic) (continues : Bool) (s : Spot) :
    Lexed :=
  match _h : s.ahead with
  | [] => ⟨tokens.reverse, diagnostics.reverse, s.position⟩
  | b :: _ =>
    let t := turn continues b s
    lexRest (t.tokens.reverse ++ tokens) (t.diagnostics.reverse ++ diagnostics) t.continues t.spot
termination_by 2 * s.ahead.length + continues.toNat
decreasing_by
  rcases turn_progress continues _h with hlt | ⟨hcontinues, hends, hlength⟩
  · have := Bool.toNat_le (turn continues b s).continues
    omega
  · subst hcontinues
    rw [hends, hlength]
    exact Nat.lt_add_one _

/-- Reads a source from its start on, where no line goes on. -/
def lex (source : Bytes) : Lexed := lexRest [] [] false (Spot.start source)

/-- The tokens before the end of a source. -/
def tokens (source : Bytes) : List Token := (lex source).tokens

/-- The place behind the last byte. -/
def endPosition (source : Bytes) : Position := (lex source).finish

/-- The token that ends a source. -/
def endToken (source : Bytes) : Token := ⟨.endOfSource, [], endPosition source⟩

/-- All tokens of a source, its end included. -/
def tokenize (source : Bytes) : List Token := tokens source ++ [endToken source]

/-- What is misspelled in a source. -/
def diagnostics (source : Bytes) : List Diagnostic := (lex source).diagnostics

end Source

end LetterToSound
