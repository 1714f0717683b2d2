import Mathlib
import LetterToSound.Proofs.Source.Loop

/-!
# Reading is local to lines

The loop stands behind a line feed as at the start of a source, wherever it comes from. So a source that
is put behind another one, on a line of its own, is read as it is read alone, only that many lines
further down. Nothing that stands on a line, however misspelled, has any bearing on another line: the
tokens of a line are those of its own text.
-/

namespace LetterToSound

/-- The place so many lines further down. -/
def Position.down (lines : Nat) (p : Position) : Position := { p with line := p.line + lines }

/-- A token so many lines further down. -/
def Token.down (lines : Nat) (t : Token) : Token := { t with position := t.position.down lines }

/-- A diagnostic so many lines further down. -/
def Diagnostic.down (lines : Nat) (d : Diagnostic) : Diagnostic :=
  { d with position := d.position.down lines }

@[simp] lemma Token.down_zero : Token.down 0 = id := rfl

lemma Token.down_comp_down (m n : Nat) : Token.down n ∘ Token.down m = Token.down (m + n) := by
  funext t
  simp [down, Position.down, Nat.add_assoc]

namespace Source

@[simp] lemma tokens_nil : tokens [] = [] := by
  rw [tokens, lex, Spot.start, ← lexFrom, lexFrom_nil]

/-- The lexemes of a source behind another one are its own, further down. -/
lemma lexemes_append (a b : Bytes) :
    lexemes (a ++ lineFeed :: b) = lexemes a ++
      (lexemes b).map fun (position, l) => (position.down (a.count lineFeed + 1), l) := by
  have hnumbers : (lines b).zipIdx (1 + (lines a).length) =
      ((lines b).zipIdx 1).map (Prod.map id (· + (a.count lineFeed + 1))) := by
    rw [List.map_snd_add_zipIdx_eq_zipIdx, length_lines, Nat.add_comm]
  rw [lexemes, lexemesFrom, lines_append, List.zipIdx_append, hnumbers, List.flatMap_append,
    List.flatMap_map, lexemes, lexemesFrom, lexemes, lexemesFrom, List.map_flatMap]
  simp [numbered, Function.comp_def, Position.down]

lemma tokens_append (a b : Bytes) : tokens (a ++ lineFeed :: b) =
    tokens a ++ (tokens b).map (Token.down (a.count lineFeed + 1)) := by
  simp only [tokens_eq_lexemes, lexemes_append, List.filterMap_append, List.filterMap_map,
    List.map_filterMap]
  simp [tokenAt?, Function.comp_def, Token.down]

lemma diagnostics_append (a b : Bytes) : diagnostics (a ++ lineFeed :: b) =
    diagnostics a ++ (diagnostics b).map (Diagnostic.down (a.count lineFeed + 1)) := by
  simp only [diagnostics_eq_lexemes, lexemes_append, List.filterMap_append, List.filterMap_map,
    List.map_filterMap]
  simp [diagnosticAt?, Function.comp_def, Diagnostic.down]

/-- A source ends where its last line does. -/
lemma endToken_append (a b : Bytes) :
    endToken (a ++ lineFeed :: b) = (endToken b).down (a.count lineFeed + 1) := by
  have hlength : (lines (a ++ lineFeed :: b)).length =
      (lines b).length + (a.count lineFeed + 1) := by
    rw [lines_append, List.length_append, length_lines a, Nat.add_comm]
  simp only [endToken, endPosition_eq_lines, Token.down, Position.down, getLastD_lines_append, hlength]

/-- The tokens of a source stand on its lines. -/
lemma line_of_mem_tokens {source : Bytes} {t : Token} (h : t ∈ tokens source) :
    1 ≤ t.position.line ∧ t.position.line ≤ source.count lineFeed + 1 := by
  rw [tokens_eq_lexemes] at h
  obtain ⟨⟨position, l⟩, hlexeme, htoken⟩ := List.mem_filterMap.mp h
  obtain ⟨⟨kind, text⟩, -, rfl⟩ := Option.map_eq_some_iff.mp htoken
  obtain ⟨⟨line, number⟩, hline, hlexeme⟩ := List.mem_flatMap.mp hlexeme
  obtain ⟨⟨column, l'⟩, -, hplace⟩ := List.mem_map.mp hlexeme
  obtain ⟨rfl, -⟩ := Prod.mk.inj hplace
  have hle := List.le_snd_of_mem_zipIdx hline
  have hlt := List.snd_lt_add_of_mem_zipIdx hline
  rw [length_lines] at hlt
  exact ⟨hle, by simp only at hlt ⊢; omega⟩

/-- A source of one line has its tokens there. -/
lemma line_eq_of_not_mem {source : Bytes} (h : lineFeed ∉ source) :
    ∀ t ∈ tokens source, t.position.line = 1 := by
  intro t ht
  have hbounds := line_of_mem_tokens ht
  rw [List.count_eq_zero_of_not_mem h] at hbounds
  omega

section FirstLine

variable {line : Bytes} (rest : Bytes)

/-- On the first line of a source stand the tokens of its text. -/
lemma filter_first_line (h : lineFeed ∉ line) :
    (tokens (line ++ lineFeed :: rest)).filter (·.position.line = 1) = tokens line := by
  have hfirst : (tokens line).filter (·.position.line = 1) = tokens line :=
    List.filter_eq_self.mpr fun t ht => by simp [line_eq_of_not_mem h t ht]
  have hbehind : ((tokens rest).map (Token.down (0 + 1))).filter (·.position.line = 1) = [] := by
    refine List.filter_eq_nil_iff.mpr fun t ht => ?_
    obtain ⟨t', ht', rfl⟩ := List.mem_map.mp ht
    have hpos := (line_of_mem_tokens ht').1
    simpa [Token.down, Position.down] using Nat.ne_of_gt hpos
  rw [tokens_append, List.count_eq_zero_of_not_mem h, List.filter_append, hfirst, hbehind,
    List.append_nil]

/-- On a later line stand those of what is behind the first one. -/
lemma filter_later_line (h : lineFeed ∉ line) (n : Nat) :
    (tokens (line ++ lineFeed :: rest)).filter (·.position.line = n + 1 + 1) =
      ((tokens rest).filter (·.position.line = n + 1)).map (Token.down 1) := by
  have hfirst : (tokens line).filter (·.position.line = n + 1 + 1) = [] :=
    List.filter_eq_nil_iff.mpr fun t ht => by simp [line_eq_of_not_mem h t ht]
  rw [tokens_append, List.count_eq_zero_of_not_mem h, List.filter_append, hfirst, List.nil_append,
    List.filter_map]
  simp [Function.comp_def, Token.down, Position.down]

end FirstLine

/-- The tokens of a line are those of its own text, that many lines further down. -/
lemma filter_line_tokens (source : Bytes) (n : Nat) :
    (tokens source).filter (·.position.line = n + 1) =
      (tokens ((lines source).getD n [])).map (Token.down n) := by
  induction hlength : source.length using Nat.strong_induction_on generalizing source n with
  | _ length ih =>
    subst hlength
    by_cases hfeed : lineFeed ∈ source
    · -- the first line, and the lines behind it
      obtain ⟨line, rest, rfl, hline⟩ := List.eq_append_cons_of_mem hfeed
      rw [lines_append, lines_of_not_mem hline]
      cases n with
      | zero =>
        refine (filter_first_line rest hline).trans ?_
        simp
      | succ n =>
        have hless : rest.length < (line ++ lineFeed :: rest).length := by
          rw [List.length_append, List.length_cons]
          omega
        rw [filter_later_line rest hline, ih rest.length hless rest n rfl, List.map_map,
          Token.down_comp_down]
        rfl
    · rw [lines_of_not_mem hfeed]
      cases n with
      | zero =>
        rw [List.filter_eq_self.mpr fun t ht => by simp [line_eq_of_not_mem hfeed t ht]]
        simp
      | succ n =>
        rw [List.filter_eq_nil_iff.mpr fun t ht => by simp [line_eq_of_not_mem hfeed t ht]]
        simp

/-- A source behind another one, on a line of its own, has the tokens and the diagnostics that it has
alone, further down, and leaves the other one its own. So the tokens of a line are those of its own
text, whatever stands on the others. -/
theorem tokenize_append_lineFeed :
    (∀ a b : Bytes,
      tokenize (a ++ lineFeed :: b) = (tokenize a).dropLast ++
          (tokenize b).map (Token.down (a.count lineFeed + 1)) ∧
        diagnostics (a ++ lineFeed :: b) =
          diagnostics a ++ (diagnostics b).map (Diagnostic.down (a.count lineFeed + 1))) ∧
      ∀ (source : Bytes) (n : Nat), (tokens source).filter (·.position.line = n + 1) =
        (tokens ((lines source).getD n [])).map (Token.down n) := by
  refine ⟨fun a b => ⟨?_, diagnostics_append a b⟩, filter_line_tokens⟩
  rw [tokenize, tokens_append, endToken_append, tokenize, List.dropLast_concat, tokenize,
    List.map_append, List.append_assoc]
  rfl

end Source

end LetterToSound
