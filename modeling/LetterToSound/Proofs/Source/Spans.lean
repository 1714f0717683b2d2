import Mathlib
import LetterToSound.Proofs.Source.Lines

/-!
# Where tokens stand

Every token has a span in its source. The place of a token is that of its first byte, the bytes of its
span are how the token is spelled, and spans follow one another. What is in no span is a blank or the
end of a line, or a stretch up to the end of a line that a number sign or a diagnostic starts.
-/

namespace LetterToSound

/-- How a token is spelled: by its text, or by its text between two equal delimiters. The value of a
directive may have quotes or not; without them it starts with none. -/
def Token.SpelledAs (t : Token) (raw : Bytes) : Prop :=
  match t.kind with
  | .text | .directive => raw = t.text
  | .directiveBody => (raw = t.text ∧ t.text.head? ≠ some Source.quote) ∨
      raw = Source.quote :: t.text ++ [Source.quote]
  | .quoted => raw = Source.quote :: t.text ++ [Source.quote]
  | .phonemes => raw = Source.slash :: t.text ++ [Source.slash]
  | .endOfSource => raw = [] ∧ t.text = []

namespace Lexeme

open Source

/-- What every lexeme of a segment satisfies. -/
def Proper : Lexeme → Prop
  | blank b => isBlank b
  | comment _ => True
  | bare kind text => text ≠ [] ∧ (kind = .text ∨ kind = .directive ∨
      kind = .directiveBody ∧ text.head? ≠ some quote)
  | enclosed kind delimiter _ => (kind = .phonemes ∧ delimiter = slash) ∨
      ((kind = .quoted ∨ kind = .directiveBody) ∧ delimiter = quote)
  | rejected _ text => text ≠ []

/-- Whether a lexeme takes all that is left of its segment. -/
def EndsSegment : Lexeme → Prop
  | comment _ => True
  | rejected _ _ => True
  | _ => False

lemma EndsSegment.token?_eq_none {l : Lexeme} (h : l.EndsSegment) : l.token? = none := by
  cases l with
  | comment text => rfl
  | rejected fault text => rfl
  | _ => cases h

/-- A token is spelled as its bytes. -/
lemma Proper.spelledAs {l : Lexeme} (h : l.Proper) {kind : TokenKind} {text : Bytes}
    (htoken : l.token? = some (kind, text)) (position : Position) :
    Token.SpelledAs ⟨kind, text, position⟩ l.raw := by
  cases l with
  | bare kind' text' =>
    cases htoken
    obtain ⟨-, rfl | rfl | ⟨rfl, hhead⟩⟩ := h
    · rfl
    · rfl
    · exact .inl ⟨rfl, hhead⟩
  | enclosed kind' delimiter text' =>
    cases htoken
    obtain ⟨rfl, rfl⟩ | ⟨rfl | rfl, rfl⟩ := h
    · rfl
    · rfl
    · exact .inr rfl
  | _ => cases htoken

lemma Proper.raw_ne_nil {l : Lexeme} (h : l.Proper) : l.raw ≠ [] := by
  cases l with
  | bare kind text => exact h.1
  | rejected fault text => exact h
  | _ => simp [raw]

lemma Proper.kind_ne {l : Lexeme} (h : l.Proper) {kind : TokenKind} {text : Bytes}
    (htoken : l.token? = some (kind, text)) : kind ≠ .endOfSource := by
  cases l with
  | bare kind' text' =>
    cases htoken
    obtain ⟨-, rfl | rfl | ⟨rfl, -⟩⟩ := h <;> decide
  | enclosed kind' delimiter text' =>
    cases htoken
    obtain ⟨rfl, -⟩ | ⟨rfl | rfl, -⟩ := h <;> decide
  | _ => cases htoken

/-- A lexeme that takes all that is left of a segment leaves nothing behind it. -/
structure Step.Proper (s : Step) : Prop where
  lexeme : s.lexeme.Proper
  rest : s.lexeme.EndsSegment → s.rest = []

lemma proper_reject (fault : LexicalFault) (b : UInt8) (bytes : Bytes) :
    (reject fault (b :: bytes)).Proper := ⟨List.cons_ne_nil b bytes, fun _ => rfl⟩

lemma proper_readEnclosed {kind : TokenKind} {fault : LexicalFault} {allowed : UInt8 → Bool}
    {next : Expected} {delimiter : UInt8} {rest : Bytes}
    (h : (enclosed kind delimiter (rest.takeWhile allowed)).Proper) :
    (readEnclosed kind fault allowed next delimiter rest).Proper := by
  unfold readEnclosed
  split
  · exact proper_reject fault delimiter rest
  · split
    · exact ⟨h, False.elim⟩
    · exact proper_reject fault delimiter rest

lemma proper_readValue {b : UInt8} {rest : Bytes} (hblank : isBlank b = false) (hquote : b ≠ quote) :
    (readValue b rest).Proper := by
  obtain ⟨behind, hbehind, -⟩ := exists_trimEnd_append (b :: rest.takeWhile isValue)
  have hne : trimEnd (b :: rest.takeWhile isValue) ≠ [] := trimEnd_ne_nil hblank
  obtain ⟨c, text, htext⟩ := List.exists_cons_of_ne_nil hne
  rw [htext] at hbehind
  obtain ⟨rfl, -⟩ := List.cons.inj hbehind
  have hproper : (bare .directiveBody (b :: text)).Proper :=
    ⟨List.cons_ne_nil b text, .inr (.inr ⟨rfl, by simpa using hquote⟩)⟩
  simp only [readValue, htext]
  exact ⟨hproper, False.elim⟩

lemma proper_readDirective (rest : Bytes) : (readDirective rest).Proper := by
  simp only [readDirective]
  split
  · exact proper_reject _ point rest
  · split
    · exact proper_reject _ point rest
    · exact ⟨⟨List.cons_ne_nil _ _, .inr (.inl rfl)⟩, False.elim⟩

/-- What a step of the scan reads. -/
theorem proper_step (expected : Expected) (b : UInt8) (rest : Bytes) :
    (step expected b rest).Proper := by
  unfold step
  split
  · rename_i hblank
    exact ⟨hblank, False.elim⟩
  rename_i hblank
  split
  · exact ⟨trivial, fun _ => rfl⟩
  split
  · split
    · exact proper_readEnclosed (.inr ⟨.inr rfl, rfl⟩)
    · rename_i hquote
      exact proper_readValue (by simpa using hblank) hquote
  split
  · exact proper_readEnclosed (.inl ⟨rfl, rfl⟩)
  split
  · exact proper_readEnclosed (.inr ⟨.inl rfl, rfl⟩)
  split
  · exact proper_readDirective rest
  · exact ⟨⟨List.cons_ne_nil _ _, .inl rfl⟩, False.elim⟩

end Lexeme

/-- A stretch of a source, up to the byte in front of its stop. -/
structure Span where
  start : Nat
  stop : Nat

namespace Span

def Holds (span : Span) (i : Nat) : Prop := span.start ≤ i ∧ i < span.stop

def bytes (span : Span) (source : Bytes) : Bytes := source.extract span.start span.stop

end Span

namespace Source

/-- The place of the byte at an offset. Its line is one more than the line feeds in front of it, its
column one more than the bytes since the last of these. -/
def placeAt (source : Bytes) (i : Nat) : Position :=
  ⟨(source.take i).count lineFeed + 1, ((source.take i).rtakeWhile (· != lineFeed)).length + 1⟩

/-- Whether two offsets are on one line, the first one not behind the second. -/
def SameLine (source : Bytes) (j i : Nat) : Prop :=
  j ≤ i ∧ ∀ k, j ≤ k → k ≤ i → ∃ b, source[k]? = some b ∧ isLineEnd b = false

/-- Whether no span has a byte of what is left of a line from an offset on. -/
def Unread (source : Bytes) (spans : List Span) (j : Nat) : Prop :=
  ∀ k, SameLine source j k → ∀ span ∈ spans, ¬ span.Holds k

/-- Whether a comment starts at an offset, or what a diagnostic is about. -/
def Dropped (source : Bytes) (j : Nat) : Prop :=
  source[j]? = some numberSign ∨ ∃ d ∈ diagnostics source, d.position = placeAt source j

/-- The span of a token: its first byte is at the token's place, and its bytes spell the token. -/
structure StandsAt (source : Bytes) (t : Token) (span : Span) : Prop where
  start_le : span.start ≤ span.stop
  stop_le : span.stop ≤ source.length
  position : t.position = placeAt source span.start
  spelled : t.SpelledAs (span.bytes source)

/-- Spans of all tokens of a source, in order, with what stands in none of them. -/
structure Layout (source : Bytes) (spans : List Span) : Prop where
  tokens : List.Forall₂ (StandsAt source) (tokenize source) spans
  ordered : spans.Pairwise fun a b => a.start < b.start ∧ a.stop ≤ b.start
  finish : spans.getLast? = some ⟨source.length, source.length⟩
  outside : ∀ i b, source[i]? = some b → (∃ span ∈ spans, span.Holds i) ∨ isBlank b ∨
    isLineEnd b ∨ ∃ j, SameLine source j i ∧ Unread source spans j ∧ Dropped source j

/-- The lexemes of lines that start at an offset, with their offsets. -/
def offsets (offset : Nat) (source : Bytes) : List (Nat × Lexeme) :=
  (Text.place (fun line : Bytes => line.length + 1) offset (lines source)).flatMap
    fun (offset, line) => lineLexemes offset line

/-- A lexeme at its offset: its bytes stand there, none of them ends the line, and behind a lexeme that
takes all that is left of its segment the line ends. -/
structure Occurs (source : Bytes) (x : Nat × Lexeme) : Prop where
  raw : x.2.raw <+: source.drop x.1
  proper : x.2.Proper
  clean : ∀ b ∈ x.2.raw, isLineEnd b = false
  last : x.2.EndsSegment → ∀ b, source[x.1 + x.2.raw.length]? = some b → isLineEnd b

/-- Lexemes at their offsets, from an offset to the end of a source. Every byte is in one of them or
ends a line. -/
inductive Laid (source : Bytes) : Nat → List (Nat × Lexeme) → Prop where
  | finish : Laid source source.length []
  | lineEnd {i : Nat} {b : UInt8} {rest : List (Nat × Lexeme)} (byte : source[i]? = some b)
      (ends : isLineEnd b) (behind : Laid source (i + 1) rest) : Laid source i rest
  | lexeme {i : Nat} {l : Lexeme} {rest : List (Nat × Lexeme)} (occurs : Occurs source (i, l))
      (behind : Laid source (i + l.raw.length) rest) : Laid source i ((i, l) :: rest)

section Laid

variable {source : Bytes} {i : Nat} {xs : List (Nat × Lexeme)} {x : Nat × Lexeme}

lemma Occurs.getElem? (h : Occurs source x) {k : Nat} (hk : k < x.2.raw.length) :
    source[x.1 + k]? = some x.2.raw[k] := by
  rw [← List.getElem?_drop]
  exact List.prefix_iff_getElem?.mp h.raw k hk

lemma Laid.le_length (h : Laid source i xs) : i ≤ source.length := by
  induction h with
  | finish => exact le_rfl
  | lineEnd byte _ _ _ => exact (List.getElem?_eq_some_iff.mp byte).1.le
  | lexeme _ _ ih => omega

lemma Laid.bounds (h : Laid source i xs) (hx : x ∈ xs) :
    i ≤ x.1 ∧ x.1 + x.2.raw.length ≤ source.length := by
  induction h with
  | finish => cases hx
  | lineEnd _ _ _ ih =>
    have := ih hx
    omega
  | lexeme _ behind ih =>
    rcases List.mem_cons.mp hx with rfl | hx
    · exact ⟨le_rfl, behind.le_length⟩
    · have := ih hx
      omega

lemma Laid.occurs (h : Laid source i xs) (hx : x ∈ xs) : Occurs source x := by
  induction h with
  | finish => cases hx
  | lineEnd _ _ _ ih => exact ih hx
  | lexeme occurs _ ih =>
    rcases List.mem_cons.mp hx with rfl | hx
    · exact occurs
    · exact ih hx

lemma Occurs.length_pos (h : Occurs source x) : 0 < x.2.raw.length :=
  List.length_pos_iff.mpr h.proper.raw_ne_nil

/-- Lexemes follow one another. -/
lemma Laid.ordered (h : Laid source i xs) :
    xs.Pairwise fun x y => x.1 < y.1 ∧ x.1 + x.2.raw.length ≤ y.1 := by
  induction h with
  | finish => exact List.Pairwise.nil
  | lineEnd _ _ _ ih => exact ih
  | lexeme occurs behind ih =>
    refine List.pairwise_cons.mpr ⟨fun y hy => ?_, ih⟩
    have hpos := occurs.length_pos
    have hle := (behind.bounds hy).1
    dsimp only at hpos ⊢
    omega

/-- Two lexemes share no byte. -/
lemma Laid.eq_of_shared (h : Laid source i xs) {y : Nat × Lexeme} (hx : x ∈ xs) (hy : y ∈ xs) {k : Nat}
    (hxk : x.1 ≤ k ∧ k < x.1 + x.2.raw.length) (hyk : y.1 ≤ k ∧ k < y.1 + y.2.raw.length) : x = y := by
  induction h with
  | finish => cases hx
  | lineEnd _ _ _ ih => exact ih hx hy
  | lexeme _ behind ih =>
    rcases List.mem_cons.mp hx with rfl | hx <;> rcases List.mem_cons.mp hy with rfl | hy
    · rfl
    · have := behind.bounds hy
      dsimp only at hxk
      omega
    · have := behind.bounds hx
      dsimp only at hyk
      omega
    · exact ih hx hy

/-- Every byte is in a lexeme or ends a line. -/
lemma Laid.covers (h : Laid source i xs) {k : Nat} {b : UInt8} (hik : i ≤ k)
    (hb : source[k]? = some b) :
    isLineEnd b ∨ ∃ x ∈ xs, x.1 ≤ k ∧ k < x.1 + x.2.raw.length := by
  induction h with
  | finish =>
    have := (List.getElem?_eq_some_iff.mp hb).1
    omega
  | @lineEnd i c rest byte ends _ ih =>
    by_cases hk : k = i
    · subst hk
      rw [byte] at hb
      cases hb
      exact .inl ends
    · exact ih (by omega)
  | @lexeme i l rest _ _ ih =>
    by_cases hk : k < i + l.raw.length
    · exact .inr ⟨(i, l), List.mem_cons_self, hik, hk⟩
    · rcases ih (by omega) with hend | ⟨x, hx, hle⟩
      · exact .inl hend
      · exact .inr ⟨x, List.mem_cons_of_mem _ hx, hle⟩

end Laid

section Layout

variable {source : Bytes} {xs : List (Nat × Lexeme)} {x : Nat × Lexeme}

/-- The token of a lexeme at an offset, with its span. -/
def tokenSpan? (source : Bytes) (x : Nat × Lexeme) : Option (Token × Span) :=
  x.2.token?.map fun (kind, text) =>
    (⟨kind, text, placeAt source x.1⟩, ⟨x.1, x.1 + x.2.raw.length⟩)

lemma exists_of_mem_tokenSpans {ts : Token × Span} (h : ts ∈ xs.filterMap (tokenSpan? source)) :
    ∃ x ∈ xs, ∃ kind text, x.2.token? = some (kind, text) ∧
      ts = (⟨kind, text, placeAt source x.1⟩, ⟨x.1, x.1 + x.2.raw.length⟩) := by
  obtain ⟨x, hx, hts⟩ := List.mem_filterMap.mp h
  obtain ⟨⟨kind, text⟩, htoken, rfl⟩ := Option.map_eq_some_iff.mp hts
  exact ⟨x, hx, kind, text, htoken, rfl⟩

lemma Occurs.sameLine (h : Occurs source x) {k : Nat} (hle : x.1 ≤ k)
    (hlt : k < x.1 + x.2.raw.length) : SameLine source x.1 k := by
  refine ⟨hle, fun m hm hmk => ?_⟩
  have hm' : m - x.1 < x.2.raw.length := by omega
  have hbyte := h.getElem? hm'
  rw [Nat.add_sub_cancel' hm] at hbyte
  exact ⟨_, hbyte, h.clean _ (List.getElem_mem hm')⟩

/-- What takes all that is left of a segment is the last on its line. -/
lemma Occurs.lt_of_sameLine (h : Occurs source x) (hends : x.2.EndsSegment) {k : Nat}
    (hk : SameLine source x.1 k) : k < x.1 + x.2.raw.length := by
  by_contra hlt
  obtain ⟨b, hb, hclean⟩ := hk.2 (x.1 + x.2.raw.length) (Nat.le_add_right _ _) (by omega)
  rw [h.last hends b hb] at hclean
  cases hclean

/-- No token stands on the line behind what takes all that is left of a segment. -/
lemma Laid.unread (h : Laid source 0 xs) (hx : x ∈ xs) (hends : x.2.EndsSegment) :
    Unread source ((xs.filterMap (tokenSpan? source)).map Prod.snd) x.1 := by
  intro k hk span hspan hholds
  obtain ⟨ts, hts, rfl⟩ := List.mem_map.mp hspan
  obtain ⟨y, hy, kind, text, htoken, rfl⟩ := exists_of_mem_tokenSpans hts
  have hlt := (h.occurs hx).lt_of_sameLine hends hk
  obtain rfl := h.eq_of_shared hx hy ⟨hk.1, hlt⟩ hholds
  rw [hends.token?_eq_none] at htoken
  cases htoken

/-- A byte of a lexeme that is no token. -/
lemma Occurs.outside (h : Occurs source x) (hlexemes : (placeAt source x.1, x.2) ∈ lexemes source)
    (htoken : x.2.token? = none) {k : Nat} {b : UInt8} (hk : x.1 ≤ k ∧ k < x.1 + x.2.raw.length)
    (hb : source[k]? = some b) : isBlank b ∨ (x.2.EndsSegment ∧ Dropped source x.1) := by
  obtain ⟨i, l⟩ := x
  cases l with
  | blank c =>
    obtain rfl : k = i := by
      have := hk.2
      simp only [Lexeme.raw, List.length_singleton] at this
      omega
    have hfirst := h.getElem? (k := 0) (by simp [Lexeme.raw])
    rw [Nat.add_zero, hb] at hfirst
    cases hfirst
    exact .inl h.proper
  | comment text =>
    have hfirst := h.getElem? (k := 0) (by simp [Lexeme.raw])
    exact .inr ⟨trivial, .inl hfirst⟩
  | rejected fault text =>
    refine .inr ⟨trivial, .inr ⟨⟨fault, placeAt source i⟩, ?_, rfl⟩⟩
    rw [diagnostics_eq_lexemes]
    exact List.mem_filterMap.mpr ⟨_, hlexemes, rfl⟩
  | bare kind text => cases htoken
  | enclosed kind delimiter text => cases htoken

/-- Lexemes at their offsets give the spans of the tokens before the end. -/
lemma Laid.standsAt (h : Laid source 0 xs) {t : Token} {span : Span}
    (hts : (t, span) ∈ xs.filterMap (tokenSpan? source)) : StandsAt source t span := by
  obtain ⟨x, hx, kind, text, htoken, heq⟩ := exists_of_mem_tokenSpans hts
  cases heq
  have hoccurs := h.occurs hx
  refine ⟨Nat.le_add_right _ _, (h.bounds hx).2, rfl, ?_⟩
  have hbytes : (Span.mk x.1 (x.1 + x.2.raw.length)).bytes source = x.2.raw := by
    rw [Span.bytes, List.extract_eq_take_drop, Nat.add_sub_cancel_left]
    exact (List.prefix_iff_eq_take.mp hoccurs.raw).symm
  rw [hbytes]
  exact hoccurs.proper.spelledAs htoken _

end Layout

section Places

variable {source : Bytes}

/-- On a line, a place moves with the bytes. -/
lemma placeAt_add {o : Nat} {bytes behind : Bytes} (hdrop : source.drop o = bytes ++ behind)
    (hclean : lineFeed ∉ bytes) {k : Nat} (hk : k ≤ bytes.length) :
    placeAt source (o + k) = ⟨(placeAt source o).line, (placeAt source o).column + k⟩ := by
  have htake : source.take (o + k) = source.take o ++ bytes.take k := by
    rw [List.take_add, hdrop, List.take_append_of_le_length hk]
  have hmem : lineFeed ∉ bytes.take k := fun h => hclean (List.mem_of_mem_take h)
  have hall : ∀ b ∈ (bytes.take k).reverse, (b != lineFeed) = true := by
    intro b hb
    simp only [bne_iff_ne, ne_eq]
    rintro rfl
    exact hmem (List.mem_reverse.mp hb)
  simp only [placeAt, htake, List.count_append, List.count_eq_zero_of_not_mem hmem, List.rtakeWhile,
    List.reverse_append, List.takeWhile_append_of_pos hall, List.length_reverse,
    List.length_append, List.length_take, Nat.min_eq_left hk]
  congr 1
  omega

/-- Behind a line feed the next line starts. -/
lemma placeAt_lineFeed {o : Nat} {behind : Bytes} (hdrop : source.drop o = lineFeed :: behind) :
    placeAt source (o + 1) = ⟨(placeAt source o).line + 1, 1⟩ := by
  have htake : source.take (o + 1) = source.take o ++ [lineFeed] := by
    rw [List.take_add, hdrop]
    rfl
  simp [placeAt, htake, List.rtakeWhile]

/-- The places of a line that starts at an offset. -/
lemma placeAt_of_line {o n : Nat} {line behind : Bytes} (hdrop : source.drop o = line ++ behind)
    (hline : lineFeed ∉ line) (hstart : placeAt source o = ⟨n, 1⟩) {k : Nat} (hk : k ≤ line.length) :
    placeAt source (o + k) = ⟨n, 1 + k⟩ := by
  rw [placeAt_add hdrop hline hk, hstart]

lemma placeAt_zero : placeAt source 0 = ⟨1, 1⟩ := by simp [placeAt, List.rtakeWhile]

/-- What stands behind a piece at an offset, and what behind that. -/
lemma drop_next {o : Nat} {piece rest : Bytes} {b : UInt8} (hdrop : source.drop o = piece ++ b :: rest) :
    source.drop (o + piece.length) = b :: rest ∧ source[o + piece.length]? = some b ∧
      source.drop (o + piece.length + 1) = rest := by
  have hnext : source.drop (o + piece.length) = b :: rest := by
    rw [← List.drop_drop, hdrop, List.drop_left]
  refine ⟨hnext, ?_, ?_⟩
  · rw [← List.head?_drop, hnext]
    rfl
  · rw [← List.drop_drop, hnext]
    rfl

/-- Where a line ends the next one starts. -/
lemma placeAt_next {o n : Nat} {line rest : Bytes} (hdrop : source.drop o = line ++ lineFeed :: rest)
    (hline : lineFeed ∉ line) (hstart : placeAt source o = ⟨n, 1⟩) :
    source.drop (o + line.length + 1) = rest ∧
      placeAt source (o + line.length + 1) = ⟨n + 1, 1⟩ := by
  obtain ⟨hfeed, -, hnext⟩ := drop_next hdrop
  refine ⟨hnext, ?_⟩
  rw [placeAt_lineFeed hfeed, placeAt_of_line hdrop hline hstart le_rfl]

/-- The last place of what is left of a source. -/
lemma placeAt_last {o n : Nat} {rest : Bytes} (hdrop : source.drop o = rest)
    (hstart : placeAt source o = ⟨n, 1⟩) :
    placeAt source (o + rest.length) =
      ⟨n + rest.count lineFeed, ((lines rest).getLastD []).length + 1⟩ := by
  induction rest using Text.piece_induction lineFeed generalizing o n with
  | last line hline =>
    rw [← List.append_nil line] at hdrop
    rw [placeAt_of_line hdrop hline hstart le_rfl, lines_of_not_mem hline,
      List.count_eq_zero_of_not_mem hline]
    simp [Nat.add_comm]
  | cons line rest hline ih =>
    obtain ⟨hdrop', hstart'⟩ := placeAt_next hdrop hline hstart
    have hplace := ih hdrop' hstart'
    rw [getLastD_lines_append, List.length_append, List.length_cons, List.count_append,
      List.count_eq_zero_of_not_mem hline, List.count_cons_self]
    rw [show o + (line.length + (rest.length + 1)) = o + line.length + 1 + rest.length by omega, hplace]
    congr 1
    omega

/-- The end of a source is the place behind its last byte. -/
lemma endPosition_eq (source : Bytes) : endPosition source = placeAt source source.length := by
  have hplace := placeAt_last (o := 0) (show source.drop 0 = source from rfl) placeAt_zero
  rw [Nat.zero_add] at hplace
  rw [hplace, endPosition_eq_lines, length_lines, Nat.add_comm]

end Places

section Laying

variable {source : Bytes} {xs : List (Nat × Lexeme)}

/-- The lexemes of what is left of a segment are laid one behind the other. -/
lemma laid_scan {o : Nat} {bytes behind : Bytes} (hdrop : source.drop o = bytes ++ behind)
    (hclean : ∀ b ∈ bytes, isLineEnd b = false) (hend : ∀ b, behind.head? = some b → isLineEnd b)
    (hxs : Laid source (o + bytes.length) xs) (expected : Lexeme.Expected) :
    Laid source o (placed o (Lexeme.scanFrom expected bytes) ++ xs) := by
  induction hlength : bytes.length using Nat.strong_induction_on generalizing o bytes expected with
  | _ length ih =>
    subst hlength
    cases bytes with
    | nil => simpa [placed] using hxs
    | cons b rest =>
      have hraw := Lexeme.raw_step expected b rest
      have hproper := Lexeme.proper_step expected b rest
      have hlt := Lexeme.length_step_lt expected b rest
      rw [Lexeme.scanFrom_cons]
      generalize Lexeme.step expected b rest = s at hraw hproper hlt
      rw [← hraw] at hdrop hclean hxs
      have hnext : source.drop (o + s.lexeme.raw.length) = s.rest ++ behind := by
        rw [← List.drop_drop, hdrop, List.append_assoc, List.drop_left]
      have hlast : s.lexeme.EndsSegment →
          ∀ b, source[o + s.lexeme.raw.length]? = some b → isLineEnd b := by
        intro hends b hb
        rw [hproper.rest hends, List.nil_append] at hnext
        refine hend b ?_
        rw [← hnext, List.head?_drop]
        exact hb
      rw [placed_cons, List.cons_append]
      refine .lexeme ⟨?_, hproper.lexeme, ?_, hlast⟩ (ih _ hlt hnext ?_ ?_ _ rfl)
      · rw [hdrop, List.append_assoc]
        exact List.prefix_append _ _
      · exact fun b hb => hclean b (List.mem_append_left _ hb)
      · exact fun b hb => hclean b (List.mem_append_right _ hb)
      · rwa [List.length_append, ← Nat.add_assoc] at hxs

/-- The lexemes of a line, segment by segment. -/
lemma laid_line {o : Nat} {line behind : Bytes} (hdrop : source.drop o = line ++ behind)
    (hline : lineFeed ∉ line) (hend : ∀ b, behind.head? = some b → isLineEnd b)
    (hxs : Laid source (o + line.length) xs) : Laid source o (lineLexemes o line ++ xs) := by
  induction line using Text.piece_induction carriageReturn generalizing o with
  | last segment hsegment =>
    rw [lineLexemes_of_not_mem o hsegment]
    exact laid_scan hdrop (isLineEnd_eq_false hline hsegment) hend hxs .item
  | cons segment rest hsegment ih =>
    simp only [List.mem_append, List.mem_cons, not_or] at hline
    rw [List.append_assoc, List.cons_append] at hdrop
    obtain ⟨-, hbyte, hnext⟩ := drop_next hdrop
    have hrest : Laid source (o + segment.length + 1)
        (lineLexemes (o + segment.length + 1) rest ++ xs) := by
      refine ih hnext hline.2.2 ?_
      rw [List.length_append, List.length_cons] at hxs
      rwa [show o + segment.length + 1 + rest.length = o + (segment.length + (rest.length + 1)) by omega]
    rw [lineLexemes_append o rest hsegment, List.append_assoc]
    exact laid_scan hdrop (isLineEnd_eq_false hline.1 hsegment) (by simp [isLineEnd])
      (.lineEnd hbyte rfl hrest) .item

lemma offsets_of_not_mem (o : Nat) {line : Bytes} (h : lineFeed ∉ line) :
    offsets o line = lineLexemes o line := by
  simp [offsets, lines_of_not_mem h, Text.place_cons]

lemma offsets_append (o : Nat) {line : Bytes} (rest : Bytes) (h : lineFeed ∉ line) :
    offsets o (line ++ lineFeed :: rest) = lineLexemes o line ++ offsets (o + line.length + 1) rest := by
  simp [offsets, lines_append, lines_of_not_mem h, Text.place_cons, Nat.add_assoc]

/-- The lexemes of a source, line by line. -/
lemma laid_offsets {o : Nat} {rest : Bytes} (hdrop : source.drop o = rest) (hle : o ≤ source.length) :
    Laid source o (offsets o rest) := by
  induction rest using Text.piece_induction lineFeed generalizing o with
  | last line hline =>
    have hfinish : Laid source (o + line.length) [] := by
      have hlength := congrArg List.length hdrop
      rw [List.length_drop] at hlength
      rw [show o + line.length = source.length by omega]
      exact .finish
    rw [← List.append_nil line] at hdrop
    rw [offsets_of_not_mem o hline, ← List.append_nil (lineLexemes o line)]
    exact laid_line hdrop hline (by simp) hfinish
  | cons line rest hline ih =>
    obtain ⟨-, hbyte, hnext⟩ := drop_next hdrop
    have hlt := (List.getElem?_eq_some_iff.mp hbyte).1
    rw [offsets_append o rest hline]
    exact laid_line hdrop hline (by simp [isLineEnd]) (.lineEnd hbyte rfl (ih hnext hlt))

end Laying

section Lexemes

variable {source : Bytes}

lemma lineLexemes_add (k o : Nat) (line : Bytes) :
    lineLexemes (k + o) line = (lineLexemes o line).map (Prod.map (k + ·) id) := by
  simp only [lineLexemes, placed, Text.place_add, List.flatMap_map, List.map_flatMap, Prod.map_fst,
    Prod.map_snd, id]

/-- The columns of a line's lexemes are those of their offsets. -/
lemma numbered_lineLexemes {o n : Nat} {line behind : Bytes} (hdrop : source.drop o = line ++ behind)
    (hline : lineFeed ∉ line) (hstart : placeAt source o = ⟨n, 1⟩) :
    numbered n (lineLexemes 1 line) =
      (lineLexemes o line).map fun x => (placeAt source x.1, x.2) := by
  have hlaid : Laid line 0 (lineLexemes 0 line) := by
    rw [← offsets_of_not_mem 0 hline]
    exact laid_offsets rfl (Nat.zero_le _)
  have hcolumns : lineLexemes 1 line = (lineLexemes 0 line).map (Prod.map (1 + ·) id) :=
    lineLexemes_add 1 0 line
  have hoffsets : lineLexemes o line = (lineLexemes 0 line).map (Prod.map (o + ·) id) :=
    lineLexemes_add o 0 line
  rw [numbered, hcolumns, hoffsets, List.map_map, List.map_map]
  refine List.map_congr_left fun x hx => ?_
  have hle : x.1 ≤ line.length := by
    have := (hlaid.bounds hx).2
    omega
  exact Prod.ext (placeAt_of_line hdrop hline hstart hle).symm rfl

/-- The lexemes of a source are at the places of their offsets. -/
lemma lexemes_eq (source : Bytes) :
    lexemes source = (offsets 0 source).map fun x => (placeAt source x.1, x.2) := by
  have hlines : ∀ {o n : Nat} {rest : Bytes}, source.drop o = rest → placeAt source o = ⟨n, 1⟩ →
      lexemesFrom n rest = (offsets o rest).map fun x => (placeAt source x.1, x.2) := by
    intro o n rest hdrop hstart
    induction rest using Text.piece_induction lineFeed generalizing o n with
    | last line hline =>
      rw [← List.append_nil line] at hdrop
      rw [lexemesFrom_of_not_mem n hline, offsets_of_not_mem o hline,
        numbered_lineLexemes hdrop hline hstart]
    | cons line rest hline ih =>
      obtain ⟨hdrop', hstart'⟩ := placeAt_next hdrop hline hstart
      rw [lexemesFrom_append n rest hline, offsets_append o rest hline, List.map_append,
        numbered_lineLexemes hdrop hline hstart, ih hdrop' hstart']
  exact hlines rfl placeAt_zero

end Lexemes

/-- The spans of the tokens of a source, its end included. -/
def spans (source : Bytes) : List Span :=
  ((offsets 0 source).filterMap (tokenSpan? source)).map Prod.snd ++ [⟨source.length, source.length⟩]

section Spans

variable (source : Bytes)

lemma laid_source : Laid source 0 (offsets 0 source) := laid_offsets rfl (Nat.zero_le _)

lemma tokens_eq :
    tokens source = ((offsets 0 source).filterMap (tokenSpan? source)).map Prod.fst := by
  rw [tokens_eq_lexemes, lexemes_eq, List.filterMap_map, List.map_filterMap]
  simp [Function.comp_def, tokenAt?, tokenSpan?]

/-- Every token stands at its span. -/
lemma standsAt_spans : List.Forall₂ (StandsAt source) (tokenize source) (spans source) := by
  have hend : StandsAt source (endToken source) ⟨source.length, source.length⟩ := by
    refine ⟨le_rfl, le_rfl, endPosition_eq source, ?_, rfl⟩
    simp [Span.bytes, List.extract_eq_take_drop]
  rw [tokenize, tokens_eq, spans]
  refine List.rel_append ?_ (.cons hend .nil)
  rw [List.forall₂_map_left_iff, List.forall₂_map_right_iff, List.forall₂_same]
  exact fun ts hts => (laid_source source).standsAt hts

/-- Spans follow one another. -/
lemma ordered_spans : (spans source).Pairwise fun a b => a.start < b.start ∧ a.stop ≤ b.start := by
  have hlaid := laid_source source
  rw [spans, List.pairwise_append]
  refine ⟨?_, List.pairwise_singleton _ _, fun a ha b hb => ?_⟩
  · rw [List.pairwise_map, List.pairwise_filterMap]
    refine hlaid.ordered.imp fun {x y} hxy p hp q hq => ?_
    obtain ⟨_, -, rfl⟩ := Option.map_eq_some_iff.mp hp
    obtain ⟨_, -, rfl⟩ := Option.map_eq_some_iff.mp hq
    exact hxy
  · obtain rfl := List.mem_singleton.mp hb
    obtain ⟨ts, hts, rfl⟩ := List.mem_map.mp ha
    obtain ⟨x, hx, kind, text, -, rfl⟩ := exists_of_mem_tokenSpans hts
    have hpos := (hlaid.occurs hx).length_pos
    have hle := (hlaid.bounds hx).2
    dsimp only
    omega

/-- What is in no span is a blank, ends a line, or is on the rest of a line that is not read. -/
lemma outside_spans {i : Nat} {b : UInt8} (hb : source[i]? = some b) :
    (∃ span ∈ spans source, span.Holds i) ∨ isBlank b ∨ isLineEnd b ∨
      ∃ j, SameLine source j i ∧ Unread source (spans source) j ∧ Dropped source j := by
  have hlaid := laid_source source
  rcases hlaid.covers (Nat.zero_le i) hb with hend | ⟨x, hx, hi⟩
  · exact .inr (.inr (.inl hend))
  have hoccurs := hlaid.occurs hx
  cases htoken : x.2.token? with
  | some token =>
    have hpair : tokenSpan? source x =
        some (⟨token.1, token.2, placeAt source x.1⟩, ⟨x.1, x.1 + x.2.raw.length⟩) := by
      rw [tokenSpan?, htoken]
      rfl
    have hspan := List.mem_map_of_mem (f := Prod.snd) (List.mem_filterMap.mpr ⟨x, hx, hpair⟩)
    exact .inl ⟨_, List.mem_append_left _ hspan, hi⟩
  | none =>
    have hlexemes : (placeAt source x.1, x.2) ∈ lexemes source := by
      rw [lexemes_eq]
      exact List.mem_map_of_mem hx
    rcases hoccurs.outside hlexemes htoken hi hb with hblank | ⟨hends, hdropped⟩
    · exact .inr (.inl hblank)
    · refine .inr (.inr (.inr ⟨x.1, hoccurs.sameLine hi.1 hi.2, ?_, hdropped⟩))
      intro k hk span hspan hholds
      rcases List.mem_append.mp hspan with hspan | hspan
      · exact hlaid.unread hx hends k hk span hspan hholds
      · obtain rfl := List.mem_singleton.mp hspan
        exact absurd (hholds.1.trans_lt hholds.2) (lt_irrefl _)

end Spans

/-- The tokens of a source end with the only one for its end. They stand in the source one behind the
other, each at the place that it names and spelled as its text asks for. No other byte is lost: it is a
blank, it ends a line, or it is between a number sign or the place of a diagnostic and the end of a
line, and no token stands there. -/
theorem exists_layout (source : Bytes) :
    (∃ ts e, tokenize source = ts ++ [e] ∧ e.kind = .endOfSource ∧
      ∀ t ∈ ts, t.kind ≠ .endOfSource) ∧
    ∃ spans : List Span, Layout source spans := by
  refine ⟨⟨tokens source, endToken source, rfl, rfl, fun t ht => ?_⟩, spans source,
    standsAt_spans source, ordered_spans source, ?_, fun i b hb => outside_spans source hb⟩
  · rw [tokens_eq] at ht
    obtain ⟨ts, hts, rfl⟩ := List.mem_map.mp ht
    obtain ⟨x, hx, kind, text, htoken, rfl⟩ := exists_of_mem_tokenSpans hts
    exact ((laid_source source).occurs hx).proper.kind_ne htoken
  · rw [spans, List.getLast?_append]
    rfl

end Source

end LetterToSound
