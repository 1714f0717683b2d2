import Mathlib
import LetterToSound.Proofs.Text.Pieces
import LetterToSound.Source.Lexer

/-!
# Lexemes

A source falls into lines, a line at its carriage returns into segments, and a segment into lexemes:
blanks, comments, tokens, and what is misspelled. Nothing is lost. The bytes of its lexemes, one behind
the other, are the segment, and what they are depends on the bytes of their own segment alone.
-/

namespace LetterToSound

/-- A stretch of a segment with a role of its own. -/
inductive Lexeme where
  /-- One blank. -/
  | blank (b : UInt8)
  /-- A comment up to the end of the segment, its number sign left out. -/
  | comment (text : Bytes)
  /-- A token that is spelled as its text. -/
  | bare (kind : TokenKind) (text : Bytes)
  /-- A token between two equal delimiters. -/
  | enclosed (kind : TokenKind) (delimiter : UInt8) (text : Bytes)
  /-- What is left of the segment, starting with a token that is misspelled. -/
  | rejected (fault : LexicalFault) (text : Bytes)
deriving DecidableEq, Repr

namespace Lexeme

open Source

/-- The bytes of a lexeme. -/
def raw : Lexeme → Bytes
  | blank b => [b]
  | comment text => numberSign :: text
  | bare _ text => text
  | enclosed _ delimiter text => delimiter :: text ++ [delimiter]
  | rejected _ text => text

/-- Kind and text of a lexeme that is a token. -/
def token? : Lexeme → Option (TokenKind × Bytes)
  | bare kind text => some (kind, text)
  | enclosed kind _ text => some (kind, text)
  | _ => none

def fault? : Lexeme → Option LexicalFault
  | rejected fault _ => some fault
  | _ => none

/-- What may come next in a segment. -/
inductive Expected where
  /-- Any item; a point starts a directive. -/
  | item
  /-- An item on a line that goes on; a point is an ordinary byte. -/
  | more
  /-- The value of a directive, which is known to be there. -/
  | body
deriving DecidableEq, Repr

/-- One lexeme, what may follow it, and the bytes behind it. -/
structure Step where
  lexeme : Lexeme
  expected : Expected
  rest : Bytes

/-- The segment ends in a fault. -/
def reject (fault : LexicalFault) (bytes : Bytes) : Step := ⟨.rejected fault bytes, .item, []⟩

/-- A token behind an opening delimiter. It has to be closed before a byte that may not stand in
it. -/
def readEnclosed (kind : TokenKind) (fault : LexicalFault) (allowed : UInt8 → Bool)
    (next : Expected) (delimiter : UInt8) (rest : Bytes) : Step :=
  match rest.dropWhile allowed with
  | [] => reject fault (delimiter :: rest)
  | c :: tail =>
    if c = delimiter then ⟨.enclosed kind delimiter (rest.takeWhile allowed), next, tail⟩
    else reject fault (delimiter :: rest)

def readPhonemes (rest : Bytes) : Step :=
  readEnclosed .phonemes .unclosedPhonemes isPhonemic .more slash rest

def readQuoted (kind : TokenKind) (next : Expected) (rest : Bytes) : Step :=
  readEnclosed kind .unclosedString isQuotable next quote rest

/-- A word. The line goes on behind it only after a tab. -/
def readText (b : UInt8) (rest : Bytes) : Step :=
  let tail := rest.dropWhile isWord
  ⟨.bare .text (b :: rest.takeWhile isWord), if tail.head? = some tab then .more else .item, tail⟩

/-- The name of a directive. Without a value behind it the directive is rejected. -/
def readDirective (rest : Bytes) : Step :=
  let tail := rest.dropWhile isWord
  match tail.dropWhile isBlank with
  | [] => reject .missingBody (point :: rest)
  | c :: _ =>
    if c = numberSign then reject .missingBody (point :: rest)
    else ⟨.bare .directive (point :: rest.takeWhile isWord), .body, tail⟩

/-- A value without quotes: what is left of the segment before a comment and the blanks in front of
it. -/
def readValue (b : UInt8) (rest : Bytes) : Step :=
  let text := trimEnd (b :: rest.takeWhile isValue)
  ⟨.bare .directiveBody text, .item, (b :: rest).drop text.length⟩

/-- The lexeme at the head of `b :: rest`. -/
def step (expected : Expected) (b : UInt8) (rest : Bytes) : Step :=
  if isBlank b then ⟨.blank b, expected, rest⟩
  else if b = numberSign then ⟨.comment rest, .item, []⟩
  else if expected = .body then
    if b = quote then readQuoted .directiveBody .item rest else readValue b rest
  else if b = slash then readPhonemes rest
  else if b = quote then readQuoted .quoted .more rest
  else if b = point ∧ expected = .item then readDirective rest
  else readText b rest

lemma raw_readEnclosed (kind : TokenKind) (fault : LexicalFault) (allowed : UInt8 → Bool)
    (next : Expected) (delimiter : UInt8) (rest : Bytes) :
    (readEnclosed kind fault allowed next delimiter rest).lexeme.raw ++
      (readEnclosed kind fault allowed next delimiter rest).rest = delimiter :: rest := by
  unfold readEnclosed
  split
  · simp [reject, raw]
  · rename_i c tail htail
    split
    · rename_i hc
      have := List.takeWhile_append_dropWhile (p := allowed) (l := rest)
      rw [htail, hc] at this
      simp [raw, this]
    · simp [reject, raw]

/-- What is taken away at the end of a text is blank. -/
lemma exists_trimEnd_append (text : Bytes) :
    ∃ blanks, text = trimEnd text ++ blanks ∧ ∀ b ∈ blanks, isBlank b := by
  refine ⟨(text.reverse.takeWhile isBlank).reverse, ?_, fun b hb => ?_⟩
  · rw [trimEnd, ← List.reverse_append, List.takeWhile_append_dropWhile, List.reverse_reverse]
  · exact List.mem_takeWhile_imp (List.mem_reverse.mp hb)

lemma trimEnd_ne_nil {b : UInt8} {text : Bytes} (h : isBlank b = false) :
    trimEnd (b :: text) ≠ [] := by
  intro hnil
  obtain ⟨blanks, hblanks, hall⟩ := exists_trimEnd_append (b :: text)
  rw [hnil, List.nil_append] at hblanks
  have hb := hall b (hblanks ▸ List.mem_cons_self)
  rw [h] at hb
  cases hb

/-- What is left of a segment behind a value: blanks, and what does not go on with a value. -/
lemma exists_readValue (b : UInt8) (rest : Bytes) :
    ∃ blanks, b :: rest.takeWhile isValue = trimEnd (b :: rest.takeWhile isValue) ++ blanks ∧
      (∀ c ∈ blanks, isBlank c) ∧ (readValue b rest).rest = blanks ++ rest.dropWhile isValue := by
  obtain ⟨blanks, hblanks, hall⟩ := exists_trimEnd_append (b :: rest.takeWhile isValue)
  have hwhole : b :: rest = trimEnd (b :: rest.takeWhile isValue) ++
      (blanks ++ rest.dropWhile isValue) := by
    rw [← List.append_assoc, ← hblanks, List.cons_append, List.takeWhile_append_dropWhile]
  refine ⟨blanks, hblanks, hall, ?_⟩
  conv_lhs => rw [readValue, hwhole]
  exact List.drop_left

lemma raw_readValue (b : UInt8) (rest : Bytes) :
    (readValue b rest).lexeme.raw ++ (readValue b rest).rest = b :: rest := by
  obtain ⟨blanks, hblanks, -, hrest⟩ := exists_readValue b rest
  rw [hrest, readValue, raw, ← List.append_assoc, ← hblanks, List.cons_append,
    List.takeWhile_append_dropWhile]

/-- Nothing is lost in a step. -/
lemma raw_step (expected : Expected) (b : UInt8) (rest : Bytes) :
    (step expected b rest).lexeme.raw ++ (step expected b rest).rest = b :: rest := by
  unfold step
  split
  · simp [raw]
  split
  · simp_all [raw]
  split
  · split
    · rename_i h
      subst h
      exact raw_readEnclosed _ _ _ _ _ _
    · exact raw_readValue b rest
  split
  · rename_i h
    subst h
    exact raw_readEnclosed _ _ _ _ _ _
  split
  · rename_i h
    subst h
    exact raw_readEnclosed _ _ _ _ _ _
  split
  · rename_i h
    simp only [readDirective]
    split
    · simp [reject, raw, h.1]
    · split <;> simp [reject, raw, h.1]
  · simp [readText, raw]

lemma readEnclosed_raw_ne_nil (kind : TokenKind) (fault : LexicalFault) (allowed : UInt8 → Bool)
    (next : Expected) (delimiter : UInt8) (rest : Bytes) :
    (readEnclosed kind fault allowed next delimiter rest).lexeme.raw ≠ [] := by
  unfold readEnclosed
  split
  · simp [reject, raw]
  · split <;> simp [reject, raw]

lemma readEnclosed_expected_ne {kind : TokenKind} {fault : LexicalFault} {allowed : UInt8 → Bool}
    {next : Expected} {delimiter : UInt8} {rest : Bytes} (hnext : next ≠ .body) :
    (readEnclosed kind fault allowed next delimiter rest).expected ≠ .body := by
  unfold readEnclosed
  split
  · simp [reject]
  · split
    · exact hnext
    · simp [reject]

/-- Every lexeme has a byte. -/
lemma step_raw_ne_nil (expected : Expected) (b : UInt8) (rest : Bytes) :
    (step expected b rest).lexeme.raw ≠ [] := by
  unfold step
  split
  · simp [raw]
  rename_i hblank
  split
  · simp [raw]
  split
  · split
    · exact readEnclosed_raw_ne_nil _ _ _ _ _ _
    · exact trimEnd_ne_nil (by simpa using hblank)
  split
  · exact readEnclosed_raw_ne_nil _ _ _ _ _ _
  split
  · exact readEnclosed_raw_ne_nil _ _ _ _ _ _
  split
  · simp only [readDirective]
    split
    · simp [reject, raw]
    · split <;> simp [reject, raw]
  · simp [readText, raw]

lemma length_step_lt (expected : Expected) (b : UInt8) (rest : Bytes) :
    (step expected b rest).rest.length < (b :: rest).length := by
  have hraw := congrArg List.length (raw_step expected b rest)
  have hpos := List.length_pos_iff.mpr (step_raw_ne_nil expected b rest)
  rw [List.length_append] at hraw
  omega

/-- The lexemes of what is left of a segment. -/
def scanFrom (expected : Expected) : Bytes → List Lexeme
  | [] => []
  | b :: rest =>
    let s := step expected b rest
    s.lexeme :: scanFrom s.expected s.rest
termination_by bytes => bytes.length
decreasing_by exact length_step_lt expected b rest

/-- The lexemes of a segment. -/
def scan (segment : Bytes) : List Lexeme := scanFrom .item segment

@[simp] lemma scanFrom_nil (expected : Expected) : scanFrom expected [] = [] := by rw [scanFrom]

lemma scanFrom_cons (expected : Expected) (b : UInt8) (rest : Bytes) :
    scanFrom expected (b :: rest) = (step expected b rest).lexeme ::
      scanFrom (step expected b rest).expected (step expected b rest).rest := by
  rw [scanFrom]

/-- The lexemes of a segment, one behind the other, are the segment. -/
lemma flatMap_raw_scanFrom (expected : Expected) (bytes : Bytes) :
    (scanFrom expected bytes).flatMap raw = bytes := by
  fun_induction scanFrom expected bytes with
  | case1 => rfl
  | case2 expected b rest s ih => rw [List.flatMap_cons, ih, raw_step]

/-- The text of a lexeme is among its bytes. -/
lemma mem_raw_of_token? {l : Lexeme} {kind : TokenKind} {text : Bytes} {b : UInt8}
    (h : l.token? = some (kind, text)) (hb : b ∈ text) : b ∈ l.raw := by
  cases l with
  | bare kind' text' =>
    cases h
    exact hb
  | enclosed kind' delimiter text' =>
    cases h
    simp [raw, hb]
  | _ => cases h

end Lexeme

namespace Source

/-- The lines of a source. -/
def lines (source : Bytes) : List Bytes := Text.cutAt lineFeed source

lemma lines_append (a b : Bytes) : lines (a ++ lineFeed :: b) = lines a ++ lines b :=
  Text.cutAt_append_separator lineFeed a b

lemma lines_of_not_mem {source : Bytes} (h : lineFeed ∉ source) : lines source = [source] :=
  Text.cutAt_of_not_mem h

lemma length_lines (source : Bytes) : (lines source).length = source.count lineFeed + 1 :=
  Text.length_cutAt lineFeed source

/-- The last line of a source is that of what stands behind a line feed. -/
lemma getLastD_lines_append (a b : Bytes) :
    (lines (a ++ lineFeed :: b)).getLastD [] = (lines b).getLastD [] := by
  obtain ⟨line, rest, hb⟩ := List.exists_cons_of_ne_nil (Text.cutAt_ne_nil lineFeed b)
  rw [lines_append, lines, lines, hb, List.getLastD_eq_getLast?, List.getLastD_eq_getLast?,
    List.getLast?_append, List.getLast?_cons, Option.some_or]

/-- Lexemes that follow one another from a start on. -/
def placed (start : Nat) (ls : List Lexeme) : List (Nat × Lexeme) :=
  Text.place (fun l : Lexeme => l.raw.length) start ls

lemma placed_cons (start : Nat) (l : Lexeme) (ls : List Lexeme) :
    placed start (l :: ls) = (start, l) :: placed (start + l.raw.length) ls :=
  Text.place_cons _ start l ls

/-- The lexemes of a line that starts at `start`. A carriage return has a place too. -/
def lineLexemes (start : Nat) (line : Bytes) : List (Nat × Lexeme) :=
  (Text.place (fun segment : Bytes => segment.length + 1) start
    (Text.cutAt carriageReturn line)).flatMap fun (start, segment) => placed start (Lexeme.scan segment)

/-- The lexemes of a line with that number. -/
def numbered (number : Nat) (xs : List (Nat × Lexeme)) : List (Position × Lexeme) :=
  xs.map fun (column, l) => (⟨number, column⟩, l)

/-- The lexemes of a source whose first line has the number `first`. -/
def lexemesFrom (first : Nat) (source : Bytes) : List (Position × Lexeme) :=
  ((lines source).zipIdx first).flatMap fun (line, number) => numbered number (lineLexemes 1 line)

/-- The lexemes of a source with their places. -/
def lexemes (source : Bytes) : List (Position × Lexeme) := lexemesFrom 1 source

section Lines

variable {line : Bytes}

lemma lineLexemes_of_not_mem (start : Nat) (h : carriageReturn ∉ line) :
    lineLexemes start line = placed start (Lexeme.scan line) := by
  simp [lineLexemes, Text.cutAt_of_not_mem h, Text.place_cons]

lemma lineLexemes_append (start : Nat) (rest : Bytes) (h : carriageReturn ∉ line) :
    lineLexemes start (line ++ carriageReturn :: rest) =
      placed start (Lexeme.scan line) ++ lineLexemes (start + line.length + 1) rest := by
  simp [lineLexemes, Text.cutAt_append h, Text.place_cons, Nat.add_assoc]

lemma lexemesFrom_of_not_mem (first : Nat) (h : lineFeed ∉ line) :
    lexemesFrom first line = numbered first (lineLexemes 1 line) := by
  simp [lexemesFrom, lines_of_not_mem h]

lemma lexemesFrom_append (first : Nat) (rest : Bytes) (h : lineFeed ∉ line) :
    lexemesFrom first (line ++ lineFeed :: rest) =
      numbered first (lineLexemes 1 line) ++ lexemesFrom (first + 1) rest := by
  simp [lexemesFrom, lines_append, lines_of_not_mem h]

end Lines

lemma mem_of_mem_lexemes {source : Bytes} {x : Position × Lexeme} {b : UInt8}
    (hx : x ∈ lexemes source) (hb : b ∈ x.2.raw) : b ∈ source := by
  obtain ⟨line, hline, hx⟩ := List.mem_flatMap.mp hx
  obtain ⟨y, hy, rfl⟩ := List.mem_map.mp hx
  obtain ⟨segment, hsegment, hy⟩ := List.mem_flatMap.mp hy
  have hscan : y.2 ∈ Lexeme.scan segment.2 := Text.mem_of_mem_place hy
  have hraw : b ∈ segment.2 := by
    rw [← Lexeme.flatMap_raw_scanFrom .item segment.2]
    exact List.mem_flatMap.mpr ⟨y.2, hscan, hb⟩
  have hpiece := Text.mem_of_mem_cutAt (Text.mem_of_mem_place hsegment) hraw
  exact Text.mem_of_mem_cutAt (List.fst_mem_of_mem_zipIdx hline) hpiece

end Source

end LetterToSound
