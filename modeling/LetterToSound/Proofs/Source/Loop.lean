import Mathlib
import LetterToSound.Proofs.Source.Lexemes

/-!
# The loop reads the lexemes

The loop cuts nothing. It goes on from byte to byte through lines and segments, with readers that stop
at bytes of their own, and it is shown here to read what the lexemes of the source say
(`lex_eq_lexemes`). A step of the scan of a segment is what the loop does at the same bytes, whatever
stands behind the segment, because every reader stops where a line ends. Behind the end of a line the
loop goes on as at the start of a source.

A turn of the loop may read two lexemes and more: a directive with its value. So the scan is followed by
what the loop does from within such a turn on (`resume`).
-/

namespace LetterToSound

/-- The place so many bytes further on, on the same line. -/
def Position.right (n : Nat) (p : Position) : Position := { p with column := p.column + n }

@[simp] lemma Position.right_zero (p : Position) : p.right 0 = p := rfl

lemma Position.right_right (m n : Nat) (p : Position) : (p.right m).right n = p.right (m + n) := by
  simp [right, Nat.add_assoc]

lemma Position.after_of_ne {b : UInt8} (h : b ≠ Source.lineFeed) (p : Position) :
    p.after b = p.right 1 := if_neg h

namespace Source

section LineEnds

variable {b : UInt8}

lemma isLineEnd_eq_false {segment : Bytes} (hfeed : lineFeed ∉ segment)
    (hreturn : carriageReturn ∉ segment) : ∀ b ∈ segment, isLineEnd b = false := by
  intro b hb
  simp only [isLineEnd, Bool.or_eq_false_iff, beq_eq_false_iff_ne]
  exact ⟨fun h => hfeed (h ▸ hb), fun h => hreturn (h ▸ hb)⟩

/-- Places stay on their line where it does not end. -/
lemma after_eq_right (h : isLineEnd b = false) (p : Position) : p.after b = p.right 1 := by
  refine Position.after_of_ne ?_ p
  rintro rfl
  cases h

/-- No reader passes the end of a line. -/
lemma not_isBlank (h : isLineEnd b) : isBlank b = false := by
  simp only [isLineEnd, Bool.or_eq_true, beq_iff_eq] at h
  obtain rfl | rfl := h <;> rfl

lemma not_isWord (h : isLineEnd b) : isWord b = false := by simp [isWord, h]

lemma not_isPhonemic (h : isLineEnd b) : isPhonemic b = false := by simp [isPhonemic, h]

lemma not_isQuotable (h : isLineEnd b) : isQuotable b = false := by simp [isQuotable, h]

lemma not_isValue (h : isLineEnd b) : isValue b = false := by simp [isValue, h]

lemma isLineEnd_of_isBlank (h : isBlank b) : isLineEnd b = false := by
  by_contra hend
  rw [not_isBlank (by simpa using hend)] at h
  cases h

/-- No line ends in what is left of a segment. -/
lemma clean_dropWhile (allowed : UInt8 → Bool) {bytes : Bytes}
    (hclean : ∀ b ∈ bytes, isLineEnd b = false) :
    ∀ b ∈ bytes.dropWhile allowed, isLineEnd b = false :=
  fun b hb => hclean b ((List.dropWhile_suffix allowed).mem hb)

lemma length_takeWhile_add (allowed : UInt8 → Bool) (bytes : Bytes) :
    (bytes.takeWhile allowed).length + (bytes.dropWhile allowed).length = bytes.length := by
  rw [← List.length_append, List.takeWhile_append_dropWhile]

end LineEnds

/-- The token of a lexeme at its place. -/
def tokenAt? (x : Position × Lexeme) : Option Token :=
  x.2.token?.map fun (kind, text) => ⟨kind, text, x.1⟩

/-- What is reported of a lexeme at its place. -/
def diagnosticAt? (x : Position × Lexeme) : Option Diagnostic :=
  x.2.fault?.map fun fault => ⟨fault, x.1⟩

/-- What has been read if these lexemes have been read before. -/
def Lexed.behind (xs : List (Position × Lexeme)) (r : Lexed) : Lexed :=
  ⟨xs.filterMap tokenAt? ++ r.tokens, xs.filterMap diagnosticAt? ++ r.diagnostics, r.finish⟩

lemma Lexed.behind_append (xs ys : List (Position × Lexeme)) (r : Lexed) :
    r.behind (xs ++ ys) = (r.behind ys).behind xs := by
  simp [behind]

/-- The loop from a place on. -/
def lexFrom (continues : Bool) (s : Spot) : Lexed := lexRest [] [] continues s

/-- What is read in a turn and behind it. -/
def Turn.finish (t : Turn) : Lexed :=
  let r := lexFrom t.continues t.spot
  ⟨t.tokens ++ r.tokens, t.diagnostics ++ r.diagnostics, r.finish⟩

section Loop

variable {b : UInt8}

lemma lexRest_nil (ts : List Token) (ds : List Diagnostic) (continues : Bool) (p : Position) :
    lexRest ts ds continues ⟨[], p⟩ = ⟨ts.reverse, ds.reverse, p⟩ := by
  rw [lexRest]

lemma lexRest_cons (ts : List Token) (ds : List Diagnostic) (continues : Bool) (b : UInt8)
    (rest : Bytes) (p : Position) :
    lexRest ts ds continues ⟨b :: rest, p⟩ =
      let t := turn continues b ⟨b :: rest, p⟩
      lexRest (t.tokens.reverse ++ ts) (t.diagnostics.reverse ++ ds) t.continues t.spot := by
  rw [lexRest]

/-- What has been read before stays in front of what is read. -/
lemma lexRest_append (ts ts' : List Token) (ds ds' : List Diagnostic) (continues : Bool) (s : Spot) :
    lexRest (ts ++ ts') (ds ++ ds') continues s =
      let r := lexRest ts ds continues s
      ⟨ts'.reverse ++ r.tokens, ds'.reverse ++ r.diagnostics, r.finish⟩ := by
  fun_induction lexRest ts ds continues s with
  | case1 ts ds continues s h =>
    obtain ⟨ahead, p⟩ := s
    cases h
    simp [lexRest_nil]
  | case2 ts ds continues s b rest h t ih =>
    obtain ⟨ahead, p⟩ := s
    cases h
    rw [List.append_assoc, List.append_assoc] at ih
    rw [lexRest_cons]
    exact ih

lemma lexFrom_nil (continues : Bool) (p : Position) : lexFrom continues ⟨[], p⟩ = ⟨[], [], p⟩ :=
  lexRest_nil [] [] continues p

/-- The loop turn by turn. -/
lemma lexFrom_cons (continues : Bool) (b : UInt8) (rest : Bytes) (p : Position) :
    lexFrom continues ⟨b :: rest, p⟩ = (turn continues b ⟨b :: rest, p⟩).finish := by
  have happend := lexRest_append [] (turn continues b ⟨b :: rest, p⟩).tokens.reverse []
    (turn continues b ⟨b :: rest, p⟩).diagnostics.reverse
  simp only [List.nil_append, List.reverse_reverse] at happend
  simp only [lexFrom, lexRest_cons, List.append_nil, happend, Turn.finish]

lemma lexFrom_blank (continues : Bool) (hb : isBlank b) (rest : Bytes) (p : Position) :
    lexFrom continues ⟨b :: rest, p⟩ = lexFrom continues ⟨rest, p.after b⟩ := by
  rw [lexFrom_cons]
  cases continues <;> simp [turn, hb, Turn.finish, Spot.advance]

/-- The end of a line is passed like a blank. -/
lemma lexFrom_lineEnd (hb : isLineEnd b) (rest : Bytes) (p : Position) :
    lexFrom false ⟨b :: rest, p⟩ = lexFrom false ⟨rest, p.after b⟩ := by
  rw [lexFrom_cons]
  simp [turn, hb, Turn.finish, Spot.advance]

/-- A line goes on neither behind its end nor behind a number sign. -/
lemma lexFrom_of_ends (continues : Bool) (hb : isLineEnd b || b == numberSign) (rest : Bytes)
    (p : Position) : lexFrom continues ⟨b :: rest, p⟩ = lexFrom false ⟨b :: rest, p⟩ := by
  have hblank : isBlank b = false := by
    simp only [isLineEnd, Bool.or_eq_true, beq_iff_eq] at hb
    obtain (rfl | rfl) | rfl := hb <;> decide
  cases continues with
  | false => rfl
  | true => simp [lexFrom_cons true, turn, hblank, hb, Turn.finish]

end Loop

/-- The loop where a segment is scanned. In front of the value of a directive it stands within a
turn. -/
def resume : Lexeme.Expected → Spot → Lexed
  | .item, s => lexFrom false s
  | .more, s => lexFrom true s
  | .body, s =>
    let body := s.skip isBlank
    match body.ahead with
    | [] => lexFrom false body
    | b :: _ => (readBody b body).finish

/-- Whether the value of a directive is there when it is expected. -/
def HasBody (expected : Lexeme.Expected) (bytes : Bytes) : Prop :=
  expected = .body → ∃ b rest, bytes.dropWhile isBlank = b :: rest ∧ b ≠ numberSign

/-- The turn that reads one lexeme of a segment, with what stands behind the segment. -/
def stepTurn (st : Lexeme.Step) (tail : Bytes) (p : Position) : Turn :=
  ⟨(tokenAt? (p, st.lexeme)).toList, (diagnosticAt? (p, st.lexeme)).toList,
    ⟨st.rest ++ tail, p.right st.lexeme.raw.length⟩, st.expected = .more⟩

lemma stepTurn_bare (kind : TokenKind) (text : Bytes) (expected : Lexeme.Expected) (rest tail : Bytes)
    (p : Position) : stepTurn ⟨.bare kind text, expected, rest⟩ tail p =
      ⟨[⟨kind, text, p⟩], [], ⟨rest ++ tail, p.right text.length⟩, expected = .more⟩ := rfl

lemma stepTurn_enclosed (kind : TokenKind) (delimiter : UInt8) (text : Bytes)
    (expected : Lexeme.Expected) (rest tail : Bytes) (p : Position) :
    stepTurn ⟨.enclosed kind delimiter text, expected, rest⟩ tail p =
      ⟨[⟨kind, text, p⟩], [], ⟨rest ++ tail, p.right (delimiter :: text ++ [delimiter]).length⟩,
        expected = .more⟩ := rfl

/-- What is read from a lexeme on. -/
def readFrom (st : Lexeme.Step) (tail : Bytes) (p : Position) : Lexed :=
  (resume st.expected ⟨st.rest ++ tail, p.right st.lexeme.raw.length⟩).behind [(p, st.lexeme)]

lemma finish_stepTurn {st : Lexeme.Step} (h : st.expected ≠ .body) (tail : Bytes) (p : Position) :
    (stepTurn st tail p).finish = readFrom st tail p := by
  obtain ⟨l, expected, rest⟩ := st
  have hone {α : Type} (f : Position × Lexeme → Option α) :
      [(p, l)].filterMap f = (f (p, l)).toList := by
    cases hf : f (p, l) <;> simp [hf]
  cases expected with
  | item => simp [Turn.finish, stepTurn, readFrom, resume, Lexed.behind, hone]
  | more => simp [Turn.finish, stepTurn, readFrom, resume, Lexed.behind, hone]
  | body => exact absurd rfl h

section Segment

variable {allowed : UInt8 → Bool} {bytes rest tail : Bytes} {b : UInt8}

variable (hstop : ∀ b, isLineEnd b → allowed b = false)
  (htail : ∀ b, tail.head? = some b → isLineEnd b)

include hstop htail

/-- A reader that stops at the ends of lines reads no further than its segment. -/
lemma takeWhile_segment (bytes : Bytes) :
    (bytes ++ tail).takeWhile allowed = bytes.takeWhile allowed := by
  induction bytes with
  | nil =>
    cases tail with
    | nil => rfl
    | cons c tail => simp [hstop c (htail c rfl)]
  | cons b bytes ih => simp only [List.cons_append, List.takeWhile_cons, ih]

/-- Where such a reader stops. -/
lemma skip_segment (hclean : ∀ b ∈ bytes, isLineEnd b = false) (p : Position) :
    Spot.skip ⟨bytes ++ tail, p⟩ allowed =
      ⟨bytes.dropWhile allowed ++ tail, p.right (bytes.takeWhile allowed).length⟩ := by
  change Spot.pass allowed p (bytes ++ tail) = _
  induction bytes generalizing p with
  | nil =>
    cases tail with
    | nil => rfl
    | cons c tail => simp [Spot.pass, hstop c (htail c rfl)]
  | cons b bytes ih =>
    obtain ⟨hb, hbytes⟩ := List.forall_mem_cons.mp hclean
    rw [List.cons_append, Spot.pass, List.dropWhile_cons, List.takeWhile_cons]
    split
    · rw [ih hbytes, after_eq_right hb, Position.right_right, List.length_cons, Nat.add_comm]
    · rfl

omit hstop

lemma skip_line (hclean : ∀ b ∈ bytes, isLineEnd b = false) (p : Position) :
    Spot.skip ⟨bytes ++ tail, p⟩ (fun b => !isLineEnd b) = ⟨tail, p.right bytes.length⟩ := by
  have hall : ∀ b ∈ bytes, (!isLineEnd b) = true := fun b hb => by rw [hclean b hb]; rfl
  rw [skip_segment (by simp) htail hclean, List.dropWhile_eq_nil_iff.mpr hall,
    List.takeWhile_eq_self_iff.mpr hall, List.nil_append]

/-- A fault takes what is left of its segment. -/
lemma report_segment (fault : LexicalFault) (hclean : ∀ b ∈ bytes, isLineEnd b = false) {whole : Bytes}
    {k : Nat} (hlength : k + bytes.length = whole.length) (p : Position) :
    report fault p ⟨bytes ++ tail, p.right k⟩ = stepTurn (Lexeme.reject fault whole) tail p := by
  rw [report, skip_line htail hclean, Position.right_right, hlength]
  rfl

/-- The rest of a segment is a fault. -/
lemma finish_report (fault : LexicalFault) (hclean : ∀ b ∈ bytes, isLineEnd b = false)
    {whole : Bytes} {k : Nat} (hlength : k + bytes.length = whole.length) (p : Position) :
    (report fault p ⟨bytes ++ tail, p.right k⟩).finish =
      readFrom (Lexeme.reject fault whole) tail p := by
  rw [report_segment htail fault hclean hlength]
  exact finish_stepTurn (by simp [Lexeme.reject]) tail p

include hstop

/-- What is between delimiters is read as in the scan of its segment. -/
lemma readEnclosed_segment (kind : TokenKind) (fault : LexicalFault) (next : Lexeme.Expected)
    {delimiter : UInt8} (hclean : ∀ b ∈ delimiter :: rest, isLineEnd b = false) (p : Position) :
    let t := readEnclosed kind fault allowed delimiter ⟨delimiter :: rest ++ tail, p⟩
    { t with continues := t.continues && next = .more } =
      stepTurn (Lexeme.readEnclosed kind fault allowed next delimiter rest) tail p := by
  obtain ⟨hdelimiter, hrest⟩ := List.forall_mem_cons.mp hclean
  have hlength := length_takeWhile_add allowed rest
  have hbytes := clean_dropWhile allowed hrest
  simp only [readEnclosed, Lexeme.readEnclosed, Spot.advance, List.cons_append,
    after_eq_right hdelimiter, skip_segment hstop htail hrest, takeWhile_segment hstop htail,
    Position.right_right]
  cases hbehind : rest.dropWhile allowed with
  | nil =>
    -- what stands behind the segment ends the line, so it is no delimiter
    have hopen : tail.head? ≠ some delimiter := fun hhead => by
      rw [htail delimiter hhead] at hdelimiter
      cases hdelimiter
    rw [hbehind] at hlength
    rw [List.nil_append, if_neg hopen, ← List.nil_append tail, report_segment htail fault (by simp)]
    · rfl
    · simp only [List.length_cons, ← hlength, List.length_nil]
      omega
  | cons c behind =>
    rw [hbehind] at hlength hbytes
    by_cases hc : c = delimiter
    · subst hc
      simp [stepTurn_enclosed, after_eq_right hdelimiter, Position.right_right, Nat.add_comm]
    · have hclose : (c :: behind ++ tail).head? ≠ some delimiter := fun hhead =>
        hc (Option.some.inj hhead)
      rw [if_neg hclose, report_segment htail fault hbytes]
      · simp only [if_neg hc]
        rfl
      · simp only [List.length_cons, ← hlength]
        omega

omit hstop

lemma finish_readPhonemes (hclean : ∀ c ∈ slash :: rest, isLineEnd c = false) (p : Position) :
    (readPhonemes ⟨slash :: rest ++ tail, p⟩).finish =
      readFrom (Lexeme.readPhonemes rest) tail p := by
  have henclosed := readEnclosed_segment (fun _ => not_isPhonemic) htail .phonemes .unclosedPhonemes
    .more hclean p
  simp only [decide_true, Bool.and_true] at henclosed
  refine (congrArg Turn.finish henclosed).trans ?_
  exact finish_stepTurn (Lexeme.readEnclosed_expected_ne (by decide)) tail p

/-- A quoted string is read in the same way among items and as the value of a directive, but for what is
expected behind it. -/
lemma finish_readQuoted (kind : TokenKind) {next : Lexeme.Expected} (hnext : next ≠ .body)
    (hclean : ∀ c ∈ quote :: rest, isLineEnd c = false) (p : Position) :
    let t := readQuoted kind ⟨quote :: rest ++ tail, p⟩
    Turn.finish { t with continues := t.continues && next = .more } =
      readFrom (Lexeme.readQuoted kind next rest) tail p := by
  have hquoted := readEnclosed_segment (fun _ => not_isQuotable) htail kind .unclosedString next
    hclean p
  refine (congrArg Turn.finish hquoted).trans ?_
  exact finish_stepTurn (Lexeme.readEnclosed_expected_ne hnext) tail p

/-- A word ends with its segment at the latest. -/
lemma finish_readText (hclean : ∀ c ∈ b :: rest, isLineEnd c = false) (hb : isWord b)
    (p : Position) :
    (readText ⟨b :: rest ++ tail, p⟩).finish = readFrom (Lexeme.readText b rest) tail p := by
  have htab : ((rest.dropWhile isWord ++ tail).head? = some tab) =
      ((rest.dropWhile isWord).head? = some tab) := by
    cases rest.dropWhile isWord with
    | nil =>
      have hopen : tail.head? ≠ some tab := fun hhead => by
        have := htail tab hhead
        cases this
      simp [hopen]
    | cons c behind => rfl
  have hturn : readText ⟨b :: rest ++ tail, p⟩ = stepTurn (Lexeme.readText b rest) tail p := by
    simp only [readText, Lexeme.readText, skip_segment (fun _ => not_isWord) htail hclean,
      takeWhile_segment (fun _ => not_isWord) htail, List.takeWhile_cons_of_pos hb,
      List.dropWhile_cons_of_pos hb, htab]
    rw [stepTurn_bare]
    by_cases h : (rest.dropWhile isWord).head? = some tab <;> simp [h]
  rw [hturn]
  refine finish_stepTurn ?_ tail p
  rw [Lexeme.readText]
  split <;> simp

/-- The name of a directive is read, and the loop stands in front of the value. -/
lemma finish_readDirective (hclean : ∀ c ∈ point :: rest, isLineEnd c = false) (p : Position) :
    (readDirective ⟨point :: rest ++ tail, p⟩).finish =
      readFrom (Lexeme.readDirective rest) tail p := by
  have hpoint : isWord point = true := by decide
  have hname := clean_dropWhile isWord (List.forall_mem_cons.mp hclean).2
  have hbody := clean_dropWhile isBlank hname
  have hlength := length_takeWhile_add isWord rest
  have hlength' := length_takeWhile_add isBlank (rest.dropWhile isWord)
  have hskip := skip_segment (fun _ => not_isBlank) htail hname
    (p.right (point :: rest.takeWhile isWord).length)
  rw [Position.right_right] at hskip
  simp only [readDirective, Lexeme.readDirective, skip_segment (fun _ => not_isWord) htail hclean,
    takeWhile_segment (fun _ => not_isWord) htail, List.takeWhile_cons_of_pos hpoint,
    List.dropWhile_cons_of_pos hpoint, hskip]
  cases hahead : (rest.dropWhile isWord).dropWhile isBlank with
  | nil =>
    rw [hahead] at hlength'
    have hnil : ∀ c ∈ ([] : Bytes), isLineEnd c = false := by simp
    have hwhole : (point :: rest.takeWhile isWord).length +
        ((rest.dropWhile isWord).takeWhile isBlank).length + ([] : Bytes).length =
          (point :: rest).length := by
      simp only [List.length_cons, List.length_nil] at hlength' ⊢
      omega
    have hreport := finish_report htail .missingBody hnil hwhole p
    cases tail with
    | nil => exact hreport
    | cons d tail =>
      simp only [List.nil_append, htail d rfl, Bool.true_or, if_true]
      exact hreport
  | cons c behind =>
    rw [hahead] at hlength' hbody
    by_cases hc : c = numberSign
    · subst hc
      simp only [List.cons_append, beq_self_eq_true, Bool.or_true, if_true]
      exact finish_report htail .missingBody hbody
        (by simp only [List.length_cons] at hlength' ⊢; omega) p
    · have hends : (isLineEnd c || c == numberSign) = false := by
        simp [hbody c List.mem_cons_self, hc]
      rw [hahead] at hskip
      simp only [List.cons_append, hends, hc, Bool.false_eq_true, if_false, readFrom, resume,
        Lexeme.raw] at hskip ⊢
      rw [hskip]
      rfl

omit htail in
lemma lexFrom_blanks {blanks : Bytes} (hblanks : ∀ b ∈ blanks, isBlank b) (p : Position) :
    lexFrom false ⟨blanks ++ rest, p⟩ = lexFrom false ⟨rest, p.right blanks.length⟩ := by
  induction blanks generalizing p with
  | nil => rfl
  | cons b blanks ih =>
    obtain ⟨hb, hblanks⟩ := List.forall_mem_cons.mp hblanks
    rw [List.cons_append, lexFrom_blank false hb, ih hblanks, after_eq_right (isLineEnd_of_isBlank hb),
      Position.right_right, List.length_cons, Nat.add_comm]

/-- Behind a value the loop has passed the blanks that the scan has still to read. -/
lemma finish_readValue (hclean : ∀ c ∈ b :: rest, isLineEnd c = false) (hb : isValue b)
    (p : Position) :
    (readValue ⟨b :: rest ++ tail, p⟩).finish = readFrom (Lexeme.readValue b rest) tail p := by
  obtain ⟨blanks, hvalue, hblanks, hrest⟩ := Lexeme.exists_readValue b rest
  have hlength := congrArg List.length hvalue
  rw [List.length_append] at hlength
  have hspot := skip_segment (fun _ => not_isValue) htail hclean p
  rw [List.dropWhile_cons_of_pos hb, List.takeWhile_cons_of_pos hb, hlength] at hspot
  have hbehind : resume .item ⟨(Lexeme.readValue b rest).rest ++ tail,
      p.right (trimEnd (b :: rest.takeWhile isValue)).length⟩ =
        lexFrom false (Spot.skip ⟨b :: rest ++ tail, p⟩ isValue) := by
    rw [hrest, List.append_assoc, resume, lexFrom_blanks hblanks, Position.right_right, hspot]
  change Turn.finish ⟨[⟨.directiveBody, trimEnd ((b :: rest ++ tail).takeWhile isValue), p⟩], [],
    Spot.skip ⟨b :: rest ++ tail, p⟩ isValue, false⟩ = Lexed.behind
      [(p, .bare .directiveBody (trimEnd (b :: rest.takeWhile isValue)))]
      (resume .item ⟨(Lexeme.readValue b rest).rest ++ tail,
        p.right (trimEnd (b :: rest.takeWhile isValue)).length⟩)
  rw [hbehind, takeWhile_segment (fun _ => not_isValue) htail, List.takeWhile_cons_of_pos hb]
  rfl

/-- At a byte that is neither a blank nor a number sign a turn of the loop begins with a lexeme. -/
lemma finish_turn {expected : Lexeme.Expected} (hexpected : expected ≠ .body)
    (hclean : ∀ c ∈ b :: rest, isLineEnd c = false) (hblank : isBlank b = false)
    (hsign : b ≠ numberSign) (p : Position) :
    (turn (expected = .more) b ⟨b :: rest ++ tail, p⟩).finish =
      readFrom (Lexeme.step expected b rest) tail p := by
  have hline : isLineEnd b = false := hclean b List.mem_cons_self
  have hword : isWord b = true := by simp [isWord, hblank, hline, hsign]
  by_cases hslash : b = slash
  · subst hslash
    have hturn (s : Spot) : turn (expected = .more) slash s = readPhonemes s := by
      cases expected <;> rfl
    have hstep : Lexeme.step expected slash rest = Lexeme.readPhonemes rest := by
      simp [Lexeme.step, hblank, hsign, hexpected]
    rw [hturn, hstep]
    exact finish_readPhonemes htail hclean p
  by_cases hquote : b = quote
  · subst hquote
    have hturn (s : Spot) : turn (expected = .more) quote s = readQuoted .quoted s := by
      cases expected <;> rfl
    have hstep : Lexeme.step expected quote rest = Lexeme.readQuoted .quoted .more rest := by
      simp [Lexeme.step, hblank, hsign, hexpected, hslash]
    have hmore : Lexeme.Expected.more ≠ .body := by decide
    have hquoted := finish_readQuoted htail .quoted hmore hclean p
    simp only [decide_true, Bool.and_true] at hquoted
    rw [hturn, hstep]
    exact hquoted
  by_cases hpoint : b = point ∧ expected = .item
  · obtain ⟨rfl, rfl⟩ := hpoint
    have hstep : Lexeme.step .item point rest = Lexeme.readDirective rest := by
      simp [Lexeme.step, hblank, hsign, hslash, hquote]
    rw [hstep]
    exact finish_readDirective htail hclean p
  · have hturn (s : Spot) : turn (expected = .more) b s = readText s := by
      cases expected with
      | item => simp_all [turn]
      | more => simp [turn, hblank, hline, hsign, hslash, hquote]
      | body => exact absurd rfl hexpected
    have hstep : Lexeme.step expected b rest = Lexeme.readText b rest := by
      simp [Lexeme.step, hblank, hsign, hexpected, hslash, hquote, hpoint]
    rw [hturn, hstep]
    exact finish_readText htail hclean hword p

/-- The value of a directive begins with a lexeme. -/
lemma resume_body (hclean : ∀ c ∈ b :: rest, isLineEnd c = false) (hblank : isBlank b = false)
    (hsign : b ≠ numberSign) (p : Position) :
    resume .body ⟨b :: rest ++ tail, p⟩ = readFrom (Lexeme.step .body b rest) tail p := by
  have hresume : resume .body ⟨b :: rest ++ tail, p⟩ =
      (readBody b ⟨b :: rest ++ tail, p⟩).finish := by
    simp [resume, Spot.skip, Spot.pass, hblank]
  rw [hresume, readBody]
  by_cases hquote : b = quote
  · subst hquote
    have hstep : Lexeme.step .body quote rest = Lexeme.readQuoted .directiveBody .item rest := by
      simp [Lexeme.step, hblank, hsign]
    have hitem : Lexeme.Expected.item ≠ .body := by decide
    have hquoted := finish_readQuoted htail .directiveBody hitem hclean p
    simp only [reduceCtorEq, decide_false, Bool.and_false] at hquoted
    rw [if_pos rfl, hstep]
    exact hquoted
  · have hstep : Lexeme.step .body b rest = Lexeme.readValue b rest := by
      simp [Lexeme.step, hblank, hsign, hquote]
    have hvalue : isValue b = true := by simp [isValue, hclean b List.mem_cons_self, hsign]
    rw [if_neg hquote, hstep]
    exact finish_readValue htail hclean hvalue p

/-- A comment is passed over, on a line that goes on as on any other. -/
lemma lexFrom_comment (continues : Bool) (hclean : ∀ c ∈ numberSign :: rest, isLineEnd c = false)
    (p : Position) : lexFrom continues ⟨numberSign :: rest ++ tail, p⟩ =
      lexFrom false ⟨tail, p.right (numberSign :: rest).length⟩ := by
  have hturn (s : Spot) :
      turn false numberSign s = ⟨[], [], s.skip fun b => !isLineEnd b, false⟩ := rfl
  rw [List.cons_append, lexFrom_of_ends continues rfl, lexFrom_cons, hturn, ← List.cons_append,
    skip_line htail hclean]
  rfl

/-- What the loop does where a lexeme of a segment is scanned. -/
lemma resume_cons {expected : Lexeme.Expected} (hbody : HasBody expected (b :: rest))
    (hclean : ∀ c ∈ b :: rest, isLineEnd c = false) (p : Position) :
    resume expected ⟨b :: rest ++ tail, p⟩ = readFrom (Lexeme.step expected b rest) tail p := by
  by_cases hblank : isBlank b
  · have hstep : Lexeme.step expected b rest = ⟨.blank b, expected, rest⟩ := by
      simp [Lexeme.step, hblank]
    have hpass : resume expected ⟨b :: rest ++ tail, p⟩ =
        resume expected ⟨rest ++ tail, p.after b⟩ := by
      cases expected with
      | item => exact lexFrom_blank false hblank _ p
      | more => exact lexFrom_blank true hblank _ p
      | body => simp [resume, Spot.skip, Spot.pass, hblank]
    rw [hpass, hstep, after_eq_right (hclean b List.mem_cons_self)]
    rfl
  rw [Bool.not_eq_true] at hblank
  by_cases hsign : b = numberSign
  · subst hsign
    have hstep : Lexeme.step expected numberSign rest = ⟨.comment rest, .item, []⟩ := by
      simp [Lexeme.step, hblank]
    rw [hstep]
    cases expected with
    | item => exact lexFrom_comment htail false hclean p
    | more => exact lexFrom_comment htail true hclean p
    | body =>
      obtain ⟨c, behind, hbehind, hc⟩ := hbody rfl
      cases hbehind
      exact absurd rfl hc
  · cases hexpected : expected with
    | item =>
      have hitem : Lexeme.Expected.item ≠ .body := by decide
      exact (lexFrom_cons false b _ p).trans (finish_turn htail hitem hclean hblank hsign p)
    | more =>
      have hmore : Lexeme.Expected.more ≠ .body := by decide
      exact (lexFrom_cons true b _ p).trans (finish_turn htail hmore hclean hblank hsign p)
    | body => exact resume_body htail hclean hblank hsign p

omit htail in
/-- A value that is expected is there. -/
lemma hasBody_step {expected : Lexeme.Expected} (hbody : HasBody expected (b :: rest)) :
    HasBody (Lexeme.step expected b rest).expected (Lexeme.step expected b rest).rest := by
  unfold Lexeme.step
  split
  · rename_i hblank
    rw [HasBody, List.dropWhile_cons_of_pos hblank] at hbody
    exact hbody
  split
  · intro h
    cases h
  split
  · split
    · exact fun h => absurd h (Lexeme.readEnclosed_expected_ne (by decide))
    · intro h
      cases h
  split
  · exact fun h => absurd h (Lexeme.readEnclosed_expected_ne (by decide))
  split
  · exact fun h => absurd h (Lexeme.readEnclosed_expected_ne (by decide))
  split
  · simp only [Lexeme.readDirective]
    split
    · intro h
      cases h
    · rename_i c behind hbehind
      split
      · intro h
        cases h
      · rename_i hc
        exact fun _ => ⟨c, behind, hbehind, hc⟩
  · intro h
    simp only [Lexeme.readText] at h
    split at h <;> cases h

lemma resume_nil {expected : Lexeme.Expected} (hbody : HasBody expected []) (p : Position) :
    resume expected ⟨tail, p⟩ = lexFrom false ⟨tail, p⟩ := by
  cases expected with
  | item => rfl
  | more =>
    cases tail with
    | nil => rw [resume, lexFrom_nil, lexFrom_nil]
    | cons c tail => exact lexFrom_of_ends true (by simp [htail c rfl]) tail p
  | body =>
    obtain ⟨c, behind, hbehind, -⟩ := hbody rfl
    cases hbehind

/-- The lexemes of a segment are read before what stands behind it. -/
lemma resume_segment {expected : Lexeme.Expected} (hbody : HasBody expected bytes)
    (hclean : ∀ b ∈ bytes, isLineEnd b = false) (p : Position) :
    resume expected ⟨bytes ++ tail, p⟩ = (lexFrom false ⟨tail, p.right bytes.length⟩).behind
      (numbered p.line (placed p.column (Lexeme.scanFrom expected bytes))) := by
  induction hlength : bytes.length using Nat.strong_induction_on generalizing expected bytes p with
  | _ length ih =>
    subst hlength
    cases bytes with
    | nil =>
      rw [Lexeme.scanFrom_nil]
      exact resume_nil htail hbody p
    | cons b rest =>
      have hraw := Lexeme.raw_step expected b rest
      have hlt := Lexeme.length_step_lt expected b rest
      have hbehind := hasBody_step hbody
      rw [resume_cons htail hbody hclean p, Lexeme.scanFrom_cons]
      generalize Lexeme.step expected b rest = st at hraw hlt hbehind
      have hwhole : (p.right st.lexeme.raw.length).right st.rest.length =
          p.right (b :: rest).length := by
        rw [Position.right_right, ← List.length_append, hraw]
      have hsuffix : ∀ c ∈ st.rest, isLineEnd c = false := fun c hc =>
        hclean c (hraw ▸ List.mem_append_right _ hc)
      rw [readFrom, ih _ hlt hbehind hsuffix _ rfl, hwhole, ← Lexed.behind_append,
        placed_cons]
      rfl

end Segment

section Source

variable {line tail : Bytes}

lemma lexFrom_segment {segment : Bytes} (hclean : ∀ b ∈ segment, isLineEnd b = false)
    (htail : ∀ b, tail.head? = some b → isLineEnd b) (p : Position) :
    lexFrom false ⟨segment ++ tail, p⟩ = (lexFrom false ⟨tail, p.right segment.length⟩).behind
      (numbered p.line (placed p.column (Lexeme.scan segment))) := by
  have hbody : HasBody .item segment := nofun
  exact resume_segment htail hbody hclean p

/-- The loop reads a line segment by segment. A carriage return is passed like a blank. -/
lemma lexFrom_line (hline : lineFeed ∉ line) (htail : ∀ b, tail.head? = some b → isLineEnd b)
    (p : Position) : lexFrom false ⟨line ++ tail, p⟩ =
      (lexFrom false ⟨tail, p.right line.length⟩).behind
        (numbered p.line (lineLexemes p.column line)) := by
  induction line using Text.piece_induction carriageReturn generalizing p with
  | last segment hsegment =>
    rw [lineLexemes_of_not_mem _ hsegment]
    exact lexFrom_segment (isLineEnd_eq_false hline hsegment) htail p
  | cons segment rest hsegment ih =>
    simp only [List.mem_append, List.mem_cons, not_or] at hline
    have hreturn : Position.after (p.right segment.length) carriageReturn =
        p.right (segment.length + 1) := by
      rw [Position.after_of_ne (by decide), Position.right_right]
    have hlength : (segment ++ carriageReturn :: rest).length = segment.length + 1 + rest.length := by
      rw [List.length_append, List.length_cons]
      omega
    rw [List.append_assoc, List.cons_append,
      lexFrom_segment (isLineEnd_eq_false hline.1 hsegment) (by simp [isLineEnd]), lexFrom_lineEnd rfl,
      hreturn, ih hline.2.2, Position.right_right, ← hlength, ← Lexed.behind_append,
      lineLexemes_append _ _ hsegment]
    simp [numbered, Position.right, Nat.add_assoc]

/-- The loop reads a source line by line. -/
lemma lexFrom_source (n : Nat) (source : Bytes) : lexFrom false ⟨source, ⟨n, 1⟩⟩ =
    Lexed.behind (lexemesFrom n source)
      ⟨[], [], n + source.count lineFeed, ((lines source).getLastD []).length + 1⟩ := by
  induction source using Text.piece_induction lineFeed generalizing n with
  | last line hline =>
    have hread : lexFrom false ⟨line ++ [], ⟨n, 1⟩⟩ = _ := lexFrom_line hline (by simp) ⟨n, 1⟩
    rw [List.append_nil, lexFrom_nil] at hread
    rw [hread, lexemesFrom_of_not_mem n hline, lines_of_not_mem hline,
      List.count_eq_zero_of_not_mem hline]
    simp [Position.right, Nat.add_comm]
  | cons line rest hline ih =>
    have hfeed (p : Position) : p.after lineFeed = ⟨p.line + 1, 1⟩ := if_pos rfl
    rw [lexFrom_line hline (by simp [isLineEnd]), lexFrom_lineEnd rfl, hfeed]
    simp only [Position.right]
    rw [ih, ← Lexed.behind_append, lexemesFrom_append n rest hline, getLastD_lines_append,
      List.count_append, List.count_eq_zero_of_not_mem hline, List.count_cons_self, Nat.zero_add,
      Nat.add_assoc, Nat.add_comm 1]

/-- The loop reads the lexemes of a source, and ends behind its last line. -/
theorem lex_eq_lexemes (source : Bytes) : lex source =
    ⟨(lexemes source).filterMap tokenAt?, (lexemes source).filterMap diagnosticAt?,
      (lines source).length, ((lines source).getLastD []).length + 1⟩ := by
  change lexFrom false ⟨source, ⟨1, 1⟩⟩ = _
  rw [lexFrom_source, length_lines, Nat.add_comm]
  simp [Lexed.behind, lexemes]

lemma tokens_eq_lexemes (source : Bytes) : tokens source = (lexemes source).filterMap tokenAt? := by
  rw [tokens, lex_eq_lexemes]

lemma diagnostics_eq_lexemes (source : Bytes) :
    diagnostics source = (lexemes source).filterMap diagnosticAt? := by
  rw [diagnostics, lex_eq_lexemes]

lemma endPosition_eq_lines (source : Bytes) :
    endPosition source = ⟨(lines source).length, ((lines source).getLastD []).length + 1⟩ := by
  rw [endPosition, lex_eq_lexemes]

/-- Every byte of a token stands in the source. -/
theorem mem_of_mem_tokens {source : Bytes} {t : Token} {b : UInt8} (ht : t ∈ tokens source)
    (hb : b ∈ t.text) : b ∈ source := by
  rw [tokens_eq_lexemes] at ht
  obtain ⟨x, hx, ht⟩ := List.mem_filterMap.mp ht
  obtain ⟨⟨kind, text⟩, htoken, rfl⟩ := Option.map_eq_some_iff.mp ht
  exact mem_of_mem_lexemes hx (Lexeme.mem_raw_of_token? htoken hb)

end Source

end Source

end LetterToSound
