import Mathlib
import LetterToSound.Proofs.Source.Lines
import LetterToSound.Language.Parser
import LetterToSound.Voice.Parser

/-!
# Carriage returns at the ends of lines

A carriage return ends a segment: every reader of the loop stops there as it does at a line feed, and
the loop passes it like a blank. A segment without bytes has no lexemes. So a carriage return in front of
a line feed adds nothing to its line and moves nothing on it, and a source whose lines end with both
bytes is read like the one whose lines end with a line feed alone.
-/

namespace LetterToSound

namespace Source

/-- The source with a carriage return in front of every line feed. -/
def withReturns (source : Bytes) : Bytes :=
  source.flatMap fun b => if b = lineFeed then [carriageReturn, lineFeed] else [b]

lemma withReturns_of_not_mem {line : Bytes} (h : lineFeed ∉ line) : withReturns line = line := by
  induction line with
  | nil => rfl
  | cons b line ih =>
    rw [List.mem_cons, not_or] at h
    rw [withReturns, List.flatMap_cons, if_neg (Ne.symm h.1), ← withReturns, ih h.2]
    rfl

lemma withReturns_append (line rest : Bytes) (h : lineFeed ∉ line) :
    withReturns (line ++ lineFeed :: rest) =
      (line ++ [carriageReturn]) ++ lineFeed :: withReturns rest := by
  have hline := withReturns_of_not_mem h
  simp only [withReturns] at hline ⊢
  rw [List.flatMap_append, hline, List.flatMap_cons, if_pos rfl]
  simp

/-- A carriage return at its end gives a line no further lexeme. -/
lemma lineLexemes_concat (start : Nat) (line : Bytes) :
    lineLexemes start (line ++ [carriageReturn]) = lineLexemes start line := by
  have hcut : Text.cutAt carriageReturn (line ++ [carriageReturn]) =
      Text.cutAt carriageReturn line ++ [[]] := Text.cutAt_append_separator carriageReturn line []
  have hnone : Lexeme.scan [] = [] := Lexeme.scanFrom_nil .item
  simp [lineLexemes, placed, hcut, Text.place_append, Text.place_cons, hnone]

lemma lineFeed_not_mem_concat {line : Bytes} (h : lineFeed ∉ line) :
    lineFeed ∉ line ++ [carriageReturn] := by
  have hne : lineFeed ≠ carriageReturn := by decide
  simp [h, hne]

/-- Carriage returns in front of line feeds leave every lexeme and its place as they are. -/
theorem lexemesFrom_withReturns (n : Nat) (source : Bytes) :
    lexemesFrom n (withReturns source) = lexemesFrom n source := by
  induction source using Text.piece_induction lineFeed generalizing n with
  | last line hline => rw [withReturns_of_not_mem hline]
  | cons line rest hline ih =>
    have hconcat := lineFeed_not_mem_concat hline
    rw [withReturns_append line rest hline, lexemesFrom_append n _ hconcat, lineLexemes_concat,
      lexemesFrom_append n rest hline, ih]

/-- Nor do they move the end: no line feed stands behind the last line. -/
lemma endToken_withReturns (source : Bytes) : endToken (withReturns source) = endToken source := by
  induction source using Text.piece_induction lineFeed with
  | last line hline => rw [withReturns_of_not_mem hline]
  | cons line rest hline ih =>
    rw [withReturns_append line rest hline, endToken_append, endToken_append, ih,
      List.count_eq_zero_of_not_mem (lineFeed_not_mem_concat hline),
      List.count_eq_zero_of_not_mem hline]

/-- A source has the same tokens and the same diagnostics, at the same places, with carriage returns
in front of its line feeds as without them. So it gives the same language or voice, or the same error. -/
theorem reading_withReturns (source : Bytes) :
    tokenize (withReturns source) = tokenize source ∧
      diagnostics (withReturns source) = diagnostics source ∧
      Language.parse (withReturns source) = Language.parse source ∧
      Voice.parse (withReturns source) = Voice.parse source := by
  have hlexemes : lexemes (withReturns source) = lexemes source := lexemesFrom_withReturns 1 source
  have htokens : tokens (withReturns source) = tokens source := by
    rw [tokens_eq_lexemes, hlexemes, ← tokens_eq_lexemes]
  have hend := endToken_withReturns source
  refine ⟨?_, ?_, ?_, ?_⟩
  · rw [tokenize, htokens, hend, tokenize]
  · rw [diagnostics_eq_lexemes, hlexemes, ← diagnostics_eq_lexemes]
  · rw [Language.parse, Language.items, htokens, hend, ← Language.items, ← Language.parse]
  · rw [Voice.parse, Voice.items, htokens, hend, ← Voice.items, ← Voice.parse]

end Source

end LetterToSound
