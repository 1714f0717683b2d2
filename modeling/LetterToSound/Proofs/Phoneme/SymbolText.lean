import Mathlib
import LetterToSound.Phoneme.Alphabet
import LetterToSound.Proofs.Phoneme.Families

/-!
# Symbols that are written one behind the other

X-SAMPA is written without anything between phonemes. A plain `t` right before an unstressed `S` is
therefore read back as the one symbol `tS`, and `d` before `Z` as `dZ`. Everything else that can be read
is read back from how it is written: no symbol goes on with a mark, and no mark with a symbol.
-/

namespace LetterToSound.XSampa

section Table

variable {s t : Symbol} {b : UInt8}

lemma length_text_le (hs : s ∈ symbols) : (Bytes.ofString s.text).length ≤ 2 := by
  revert s
  decide +kernel

/-- No symbol stands behind one that it goes on with. -/
lemma pairwise_symbols :
    symbols.Pairwise fun s t => ¬Bytes.ofString s.text <+: Bytes.ofString t.text := by
  decide +kernel

lemma find?_bits (hs : s ∈ symbols) : symbols.find? (·.bits == s.bits) = some s := by
  revert s
  decide +kernel

lemma bits_and_mask (hs : s ∈ symbols) : s.bits &&& markMask = 0 := by
  revert s
  decide +kernel

/-- The bytes that marks begin with. -/
def markBytes : Bytes := [0x5F, 0x3A, 0x22, 0x25]

/-- A symbol begins with no mark, with nothing that a mark goes on with, and with no blank. -/
lemma exists_first (hs : s ∈ symbols) : ∃ b rest, Bytes.ofString s.text = b :: rest ∧
    b ∉ markBytes ∧ b ≠ 0x5C ∧ Explicit.isBlank b = false ∧ stress? b = none := by
  have hall : (symbols.all fun s => ((Bytes.ofString s.text).take 1).all fun b =>
      !markBytes.contains b && (b != 0x5C && (!Explicit.isBlank b && (stress? b).isNone))) = true := by
    decide +kernel
  cases hbytes : Bytes.ofString s.text with
  | nil => exact absurd hbytes (text_ne_nil hs)
  | cons b rest =>
    have hfirst := List.all_eq_true.mp hall s hs
    rw [hbytes] at hfirst
    exact ⟨b, rest, rfl, by simpa using hfirst⟩

/-- No symbol goes on with a mark. -/
lemma not_mem_markBytes (hs : s ∈ symbols) (hb : b ∈ (Bytes.ofString s.text).drop 1) :
    b ∉ markBytes := by
  have hall : (symbols.all fun s => ((Bytes.ofString s.text).drop 1).all fun b =>
      !markBytes.contains b) = true := by decide +kernel
  simpa using List.all_eq_true.mp (List.all_eq_true.mp hall s hs) b hb

/-- Where a symbol goes on with the first byte of one, it is one of two that end with that one. -/
lemma mem_of_take_one (hs : s ∈ symbols) (ht : t ∈ symbols)
    (hlong : (Bytes.ofString s.text).drop 1 ≠ [])
    (h : (Bytes.ofString t.text).take 1 = (Bytes.ofString s.text).drop 1) :
    (s.text, t.text) ∈ [("tS", "S"), ("dZ", "Z")] := by
  have hall : ∀ s ∈ symbols, (Bytes.ofString s.text).drop 1 ≠ [] → ∀ t ∈ symbols,
      (Bytes.ofString t.text).take 1 = (Bytes.ofString s.text).drop 1 →
        (s.text, t.text) ∈ [("tS", "S"), ("dZ", "Z")] := by decide +kernel
  exact hall s hs hlong t ht h

lemma length_text_pos (hs : s ∈ symbols) : 0 < (Bytes.ofString s.text).length :=
  List.length_pos_iff.mpr (text_ne_nil hs)

/-- Only two symbols are two others one behind the other. -/
lemma mem_of_text_eq_append {u : Symbol} (hu : u ∈ symbols) (hs : s ∈ symbols) (ht : t ∈ symbols)
    (h : u.text = s.text ++ t.text) : (s.text, t.text) ∈ [("t", "S"), ("d", "Z")] := by
  have hle := length_text_le hu
  have hpos := length_text_pos hs
  have hpos' := length_text_pos ht
  rw [h, Bytes.ofString_append, List.length_append] at hle
  have hdrop : (Bytes.ofString u.text).drop 1 = Bytes.ofString t.text := by
    rw [h, Bytes.ofString_append, List.drop_append_of_le_length hpos,
      List.drop_eq_nil_of_le (by omega), List.nil_append]
  have hpair := mem_of_take_one hu ht (hdrop ▸ text_ne_nil ht)
    (by rw [hdrop, List.take_of_length_le (by omega)])
  simp only [List.mem_cons, List.not_mem_nil, or_false, Prod.mk.injEq] at hpair ⊢
  refine hpair.imp (fun ⟨hu, ht⟩ => ⟨?_, ht⟩) (fun ⟨hu, ht⟩ => ⟨?_, ht⟩)
  · rw [hu, ht] at h
    exact (String.append_left_inj "S").mp h.symm
  · rw [hu, ht] at h
    exact (String.append_left_inj "Z").mp h.symm

end Table

/-- Whether no symbol goes on behind `s` with the first of these bytes. -/
def Ends (s : Symbol) (behind : Bytes) : Prop :=
  ∀ b ∈ behind.head?, ∀ t ∈ symbols, Bytes.ofString t.text ≠ Bytes.ofString s.text ++ [b]

section Ends

variable {s t : Symbol} {behind : Bytes}

/-- Where no symbol goes on behind `s`, one that the text begins with is `s` or begins `s` too. -/
lemma prefix_of_ends (hs : s ∈ symbols) (ht : t ∈ symbols) (hends : Ends s behind)
    (h : Bytes.ofString t.text <+: Bytes.ofString s.text ++ behind) :
    Bytes.ofString t.text <+: Bytes.ofString s.text := by
  rcases List.prefix_or_prefix_of_prefix h (List.prefix_append _ _) with hprefix | hprefix
  · exact hprefix
  -- else `t` is `s` and at most one byte, as no symbol has more than two
  obtain ⟨more, hmore⟩ := hprefix
  rw [← hmore, List.prefix_append_right_inj] at h
  have hpos := length_text_pos hs
  have hle := length_text_le ht
  rw [← hmore, List.length_append] at hle
  match more, h with
  | [], _ => rw [← hmore, List.append_nil]
  | [b], hb =>
    obtain ⟨rest, rfl⟩ := hb
    exact absurd hmore.symm (hends b rfl t ht)
  | _ :: _ :: _, _ =>
    simp only [List.length_cons] at hle
    omega

/-- A symbol is found where none goes on behind it. -/
lemma symbol?_append (hs : s ∈ symbols) (hends : Ends s behind) :
    symbol? (Bytes.ofString s.text ++ behind) = some (s, behind) := by
  have hfind : (symbols.find? fun t =>
      (Bytes.ofString t.text).isPrefixOf (Bytes.ofString s.text ++ behind)) = some s := by
    obtain ⟨before, after, hsymbols⟩ := List.append_of_mem hs
    rw [List.find?_eq_some_iff_append]
    refine ⟨by simp, before, after, hsymbols, fun t ht => ?_⟩
    have htmem : t ∈ symbols := hsymbols ▸ List.mem_append_left _ ht
    have hpairwise := pairwise_symbols
    rw [hsymbols, List.pairwise_append] at hpairwise
    simp only [Bool.not_eq_true', ← Bool.not_eq_true, List.isPrefixOf_iff_prefix]
    intro hprefix
    exact hpairwise.2.2 t ht s List.mem_cons_self (prefix_of_ends hs htmem hends hprefix)
  rw [symbol?, hfind]
  simp

lemma ends_nil (s : Symbol) : Ends s [] := by simp [Ends]

lemma ends_of_length (h : 2 ≤ (Bytes.ofString s.text).length) : Ends s behind := by
  intro b _ t ht heq
  have hle := length_text_le ht
  rw [heq, List.length_append, List.length_singleton] at hle
  omega

/-- The rest of a symbol behind its first byte, where it goes on behind another one. -/
lemma drop_one_eq {b : UInt8} (hs : s ∈ symbols) (ht : t ∈ symbols)
    (h : Bytes.ofString t.text = Bytes.ofString s.text ++ [b]) :
    (Bytes.ofString t.text).drop 1 = [b] := by
  have hpos := length_text_pos hs
  have hle := length_text_le ht
  rw [h, List.length_append, List.length_singleton] at hle
  rw [h, List.drop_append_of_le_length hpos, List.drop_eq_nil_of_le (by omega), List.nil_append]

lemma ends_of_mark (hs : s ∈ symbols) {b : UInt8} (hb : b ∈ markBytes) : Ends s (b :: behind) := by
  intro c hc t ht heq
  cases hc
  exact not_mem_markBytes ht (drop_one_eq hs ht heq ▸ List.mem_singleton_self b) hb

lemma take_one_append (ht : t ∈ symbols) {b : UInt8}
    (hb : b ∈ (Bytes.ofString t.text ++ behind).head?) : (Bytes.ofString t.text).take 1 = [b] := by
  obtain ⟨c, rest, hbytes, -⟩ := exists_first ht
  rw [hbytes] at hb ⊢
  cases hb
  rfl

/-- Where two symbols together are none, the first ends where the second one begins. -/
lemma ends_symbol (hs : s ∈ symbols) (ht : t ∈ symbols)
    (hnone : symbols.find? (·.text == s.text ++ t.text) = none) :
    Ends s (Bytes.ofString t.text ++ behind) := by
  intro b hb u hu heq
  have hdrop := drop_one_eq hs hu heq
  have hpair := mem_of_take_one hu ht (by simp [hdrop]) ((take_one_append ht hb).trans hdrop.symm)
  have hrest : Bytes.ofString t.text = [b] := by
    rw [← hdrop]
    simp only [List.mem_cons, List.not_mem_nil, or_false, Prod.mk.injEq] at hpair
    rcases hpair with ⟨hu, ht⟩ | ⟨hu, ht⟩ <;> rw [hu, ht] <;> rfl
  rw [← hrest, ← Bytes.ofString_append] at heq
  have htext : u.text = s.text ++ t.text := by
    have hdecoded := congrArg Bytes.toString? heq
    simpa using hdecoded
  have hother := List.find?_eq_none.mp hnone u hu
  exact hother (by simp [htext])

end Ends

/-- The families of marks. -/
def marks : List Family := [.aspiration, .length, .stress]

/-- What X-SAMPA can tell of a phoneme: a symbol, and marks. -/
structure Spelled (p : Phoneme) : Prop where
  symbol : ∃ s ∈ symbols, p.get (~~~markMask) = s.bits
  regular : ∀ family ∈ marks, p.Regular family

lemma mask_and_not_markMask {family : Family} (h : family ∈ marks) :
    family.mask &&& ~~~markMask = 0 := by
  revert family
  decide

lemma Spelled.set {p : Phoneme} (h : Spelled p) {family : Family} (hfamily : family ∈ marks)
    {value : UInt64} (hvalue : Phoneme.Regular ⟨value⟩ family) :
    Spelled (p.set value family.mask) where
  symbol := by
    obtain ⟨s, hs, hbits⟩ := h.symbol
    exact ⟨s, hs, by rw [Phoneme.get_set_of_disjoint p value (mask_and_not_markMask hfamily), hbits]⟩
  regular other hother := (h.regular other hother).set hvalue

lemma mask_and_markMask {family : Family} (h : family ∈ marks) :
    markMask &&& family.mask = family.mask := by
  revert family
  decide

lemma bits_and_mark {s : Symbol} (hs : s ∈ symbols) {family : Family} (h : family ∈ marks) :
    s.bits &&& family.mask = 0 := by
  rw [← mask_and_markMask h, ← UInt64.and_assoc, bits_and_mask hs, UInt64.zero_and]

lemma spelled_symbol {s : Symbol} (hs : s ∈ symbols) : Spelled ⟨s.bits⟩ where
  symbol := by
    refine ⟨s, hs, ?_⟩
    have hsplit : s.bits = s.bits &&& markMask ||| s.bits &&& ~~~markMask := by
      rw [← and_or_distrib, UInt64.or_not_self]
      simp
    rw [bits_and_mask hs, UInt64.zero_or] at hsplit
    exact hsplit.symm
  regular _ hfamily := .inl (bits_and_mark hs hfamily)

/-! ## What is read -/

lemma spelled_modify {p : Phoneme} (h : Spelled p) (bytes : Bytes) : Spelled (modify p bytes).1 := by
  fun_induction modify p bytes with
  | case1 => exact h
  | case2 p bytes m rest hm ih =>
    refine ih (h.set (by cases m <;> decide) (Feature.regular_value ?_))
    cases m <;> decide

lemma regular_stress? {b : UInt8} {mark : UInt64} (h : stress? b = some mark) :
    Phoneme.Regular ⟨mark⟩ .stress := by
  unfold stress? at h
  split_ifs at h <;> cases h
  · exact Feature.regular_value (f := Feature.primaryStress) (by decide)
  · exact Feature.regular_value (f := Feature.secondaryStress) (by decide)

lemma spelled_of_parseRest {size : Nat} {stress : UInt64} {read ps : List Phoneme} {bytes : Bytes}
    (h : parseRest size stress read bytes = .ok ps) (hstress : Phoneme.Regular ⟨stress⟩ .stress)
    (hread : ∀ p ∈ read, Spelled p) : ∀ p ∈ ps, Spelled p := by
  fun_induction parseRest size stress read bytes with
  | case1 stress read =>
    cases h
    exact fun p hp => hread p (List.mem_reverse.mp hp)
  | case2 stress read b rest hblank ih => exact ih h hstress hread
  | case3 stress read b rest hblank mark hmark ih => exact ih h (regular_stress? hmark) hread
  | case4 => cases h
  | case5 stress read b rest hblank hmark s behind hs modified ih =>
    refine ih h (.inl UInt64.zero_and) (List.forall_mem_cons.mpr ⟨?_, hread⟩)
    have hmem : s ∈ symbols := by
      simp only [symbol?, Option.map_eq_some_iff, Prod.mk.injEq] at hs
      obtain ⟨t, ht, rfl, -⟩ := hs
      exact List.mem_of_find?_eq_some ht
    exact spelled_modify ((spelled_symbol hmem).set (by decide) hstress) behind

/-- Phonemes that are read from X-SAMPA are a symbol with marks each. -/
theorem spelled_of_parse {text : Bytes} {ps : List Phoneme} (h : parse text = .ok ps) :
    ∀ p ∈ ps, Spelled p :=
  spelled_of_parseRest h (.inl UInt64.zero_and) (List.forall_mem_nil _)

/-! ## Reading back what is written -/

/-- A symbol with the stress of a phoneme before it and the marks of a phoneme behind it. -/
def assemble (s : Symbol) (p q : Phoneme) : Phoneme :=
  ((Phoneme.set ⟨s.bits⟩ (p.get Family.stress.mask) Family.stress.mask).set
    (q.get Family.aspiration.mask) Family.aspiration.mask).set
    (q.get Family.length.mask) Family.length.mask

/-- A phoneme is its symbol with its own marks. -/
lemma assemble_self {s : Symbol} {p : Phoneme} (h : p.get (~~~markMask) = s.bits) :
    assemble s p p = p := by
  have hget (mask : UInt64) : p.get mask &&& mask = p.get mask := by
    rw [Phoneme.get, UInt64.and_assoc, UInt64.and_self]
  refine Phoneme.ext_of_mask markMask ?_ ?_
  · have hlength : (assemble s p p).get Family.length.mask = p.get Family.length.mask := by
      rw [assemble, Phoneme.get_set, hget]
    have haspiration :
        (assemble s p p).get Family.aspiration.mask = p.get Family.aspiration.mask := by
      rw [assemble, Phoneme.get_set_of_disjoint _ _ (by decide), Phoneme.get_set, hget]
    have hstress : (assemble s p p).get Family.stress.mask = p.get Family.stress.mask := by
      rw [assemble, Phoneme.get_set_of_disjoint _ _ (by decide),
        Phoneme.get_set_of_disjoint _ _ (by decide), Phoneme.get_set, hget]
    rw [markMask, Phoneme.get_or, Phoneme.get_or, hlength, haspiration, hstress, ← Phoneme.get_or,
      ← Phoneme.get_or]
  · rw [assemble, Phoneme.get_set_of_disjoint _ _ (by decide),
      Phoneme.get_set_of_disjoint _ _ (by decide), Phoneme.get_set_of_disjoint _ _ (by decide), ← h]
    exact hget _

lemma writeBase_eq {s : Symbol} (hs : s ∈ symbols) {p : Phoneme} (h : p.get (~~~markMask) = s.bits) :
    writeBase p = s.text := by
  rw [writeBase, h, find?_bits hs]

/-- The mark for aspiration that is written, if any. -/
def writeAspiration (p : Phoneme) : String :=
  if p.get Family.aspiration.mask = Feature.aspirated.value then Modifier.aspirated.text else ""

/-- The mark for a length that is written, if any. -/
def writeLength (p : Phoneme) : String :=
  if p.get Family.length.mask = Feature.long.value then Modifier.long.text
  else if p.get Family.length.mask = Feature.halfLong.value then Modifier.halfLong.text
  else ""

lemma writeModifiers_eq (p : Phoneme) : writeModifiers p = writeAspiration p ++ writeLength p := rfl

lemma modify_of_some {bytes rest : Bytes} {m : Modifier} (h : modifier? bytes = some (m, rest))
    (p : Phoneme) : modify p bytes = modify (m.apply p) rest := by
  rw [modify]
  split
  · rename_i heq
    rw [h] at heq
    cases heq
  · rename_i heq
    rw [h] at heq
    cases heq
    rfl

lemma modify_of_none {bytes : Bytes} (h : modifier? bytes = none) (p : Phoneme) :
    modify p bytes = (p, bytes) := by
  rw [modify]
  split
  · rfl
  · rename_i heq
    rw [h] at heq
    cases heq

/-- Whether no mark behind a symbol begins with these bytes or goes on with them. -/
def Clear (bytes : Bytes) : Prop := ∀ b ∈ bytes.head?, b ≠ 0x5F ∧ b ≠ 0x3A ∧ b ≠ 0x5C

section Marks

variable {p q : Phoneme} {rest : Bytes}

lemma modify_clear (hrest : Clear rest) (q : Phoneme) : modify q rest = (q, rest) := by
  refine modify_of_none ?_ q
  unfold modifier?
  split
  · exact absurd rfl (hrest _ rfl).1
  · exact absurd rfl (hrest _ rfl).2.1
  · exact absurd rfl (hrest _ rfl).2.1
  · rfl

/-- A length mark is that of a long sound where nothing makes it one of a half-long sound. -/
lemma modifier?_long (hrest : Clear rest) : modifier? (0x3A :: rest) = some (.long, rest) := by
  unfold modifier?
  split
  · rename_i heq
    cases heq
  · rename_i heq
    cases heq
    exact absurd rfl (hrest _ rfl).2.2
  · rename_i heq
    cases heq
    rfl
  · rename_i hno
    exact absurd rfl (hno rest)

lemma set_zero {mask : UInt64} (h : q.get mask = 0) : q.set 0 mask = q := by
  refine Phoneme.ext_of_mask mask ?_ ?_
  · rw [Phoneme.get_set, UInt64.zero_and, h]
  · exact Phoneme.get_set_of_disjoint _ _ (by simp)

lemma modify_writeLength (hp : p.Regular .length) (hq : q.get Family.length.mask = 0)
    (hrest : Clear rest) : modify q (Bytes.ofString (writeLength p) ++ rest) =
      (q.set (p.get Family.length.mask) Family.length.mask, rest) := by
  have hcases : p.get Family.length.mask ∈ [0, Feature.halfLong.value, Feature.long.value] :=
    hp.mem_values
  simp only [List.mem_cons, List.not_mem_nil, or_false] at hcases
  rcases hcases with hlength | hlength | hlength
  · rw [writeLength, hlength, set_zero hq]
    exact modify_clear hrest q
  · have hmark : modifier? (0x3A :: 0x5C :: rest) = some (.halfLong, rest) := rfl
    rw [writeLength, hlength]
    exact (modify_of_some hmark q).trans (modify_clear hrest _)
  · rw [writeLength, hlength]
    exact (modify_of_some (modifier?_long hrest) q).trans (modify_clear hrest _)

/-- The marks behind a symbol are read as what they were written for. -/
lemma modify_writeModifiers (hp : ∀ family ∈ marks, p.Regular family)
    (hq : q.get Family.aspiration.mask = 0) (hq' : q.get Family.length.mask = 0)
    (hrest : Clear rest) : modify q (Bytes.ofString (writeModifiers p) ++ rest) =
      ((q.set (p.get Family.aspiration.mask) Family.aspiration.mask).set
        (p.get Family.length.mask) Family.length.mask, rest) := by
  have hlength := hp .length (by decide)
  have hcases : p.get Family.aspiration.mask ∈ [0, Feature.aspirated.value] :=
    (hp .aspiration (by decide)).mem_values
  simp only [List.mem_cons, List.not_mem_nil, or_false] at hcases
  rw [writeModifiers_eq, Bytes.ofString_append, List.append_assoc]
  rcases hcases with haspiration | haspiration
  · rw [writeAspiration, haspiration, set_zero hq]
    exact modify_writeLength hlength hq' hrest
  · have hmark : modifier? (0x5F :: 0x68 :: (Bytes.ofString (writeLength p) ++ rest)) =
      some (.aspirated, Bytes.ofString (writeLength p) ++ rest) := rfl
    rw [writeAspiration, haspiration]
    refine (modify_of_some hmark q).trans (modify_writeLength hlength ?_ hrest)
    rw [Modifier.apply, Phoneme.get_set_of_disjoint _ _ (by decide), hq']

/-- The stress mark is read as what it was written for. -/
lemma parseRest_writeStress (hp : p.Regular .stress) (size : Nat) (read : List Phoneme) :
    parseRest size 0 read (Bytes.ofString (writeStress p) ++ rest) =
      parseRest size (p.get Family.stress.mask) read rest := by
  have hmark {b : UInt8} {mark : UInt64} (hblank : Explicit.isBlank b = false)
      (hb : stress? b = some mark) :
      parseRest size 0 read (b :: rest) = parseRest size mark read rest := by
    rw [parseRest, if_neg (by simp [hblank]), hb]
  have hcases : p.get Family.stress.mask ∈
    [0, Feature.primaryStress.value, Feature.secondaryStress.value] := hp.mem_values
  simp only [List.mem_cons, List.not_mem_nil, or_false] at hcases
  rcases hcases with hstress | hstress | hstress
  · rw [writeStress, hstress]
    rfl
  · rw [writeStress, hstress]
    exact hmark (b := 0x22) rfl rfl
  · rw [writeStress, hstress]
    exact hmark (b := 0x25) rfl rfl

end Marks

/-- A symbol between marks is read, where none goes on behind it. -/
lemma parseRest_assemble {s : Symbol} (hs : s ∈ symbols) {p q : Phoneme}
    (hp : ∀ family ∈ marks, p.Regular family) (hq : ∀ family ∈ marks, q.Regular family)
    {rest : Bytes} (hrest : Clear rest) (hends : Ends s (Bytes.ofString (writeModifiers q) ++ rest))
    (size : Nat) (read : List Phoneme) :
    parseRest size 0 read (Bytes.ofString (writeStress p ++ s.text ++ writeModifiers q) ++ rest) =
      parseRest size 0 (assemble s p q :: read) rest := by
  have hmark {family : Family} (h : family ∈ marks) (hne : family ≠ .stress) :
      (Phoneme.set ⟨s.bits⟩ (p.get Family.stress.mask) Family.stress.mask).get family.mask = 0 := by
    rw [Phoneme.get_set_of_disjoint _ _ (Family.mask_and_mask (Ne.symm hne))]
    exact bits_and_mark hs h
  rw [Bytes.ofString_append, Bytes.ofString_append, List.append_assoc, List.append_assoc,
    parseRest_writeStress (hp .stress (by decide))]
  have hfound := symbol?_append hs hends
  obtain ⟨b, tail, hbytes, -, -, hblank, hstress⟩ := exists_first hs
  rw [hbytes] at hfound ⊢
  rw [List.cons_append, parseRest, if_neg (by simp [hblank]), hstress]
  dsimp only
  split
  · rename_i heq
    rw [← List.cons_append, hfound] at heq
    cases heq
  · rename_i heq
    rw [← List.cons_append, hfound] at heq
    cases heq
    rw [modify_writeModifiers hq (hmark (by decide) (by decide)) (hmark (by decide) (by decide)) hrest]
    rfl

/-- The symbol that two phonemes are read as where they are written one behind the other. -/
def fused? (p q : Phoneme) : Option Symbol :=
  symbols.find? (·.text == writeBase p ++ writeModifiers p ++ (writeStress q ++ writeBase q))

/-- Whether two phonemes are written as `t` and `S`, or as `d` and `Z`, with no mark between them. -/
def Merges (p q : Phoneme) : Prop :=
  writeModifiers p = "" ∧ writeStress q = "" ∧ (writeBase p, writeBase q) ∈ [("t", "S"), ("d", "Z")]

/-- What written phonemes are read back as: those that are one symbol together become one phoneme. -/
def joined : List Phoneme → List Phoneme
  | [] => []
  | [p] => [p]
  | p :: q :: rest =>
    match fused? p q with
    | some s => assemble s p q :: joined rest
    | none => p :: joined (q :: rest)

section Joined

variable {p q : Phoneme}

lemma Spelled.exists_writeBase (h : Spelled p) :
    ∃ s ∈ symbols, p.get (~~~markMask) = s.bits ∧ writeBase p = s.text := by
  obtain ⟨s, hs, hbits⟩ := h.symbol
  exact ⟨s, hs, hbits, writeBase_eq hs hbits⟩

lemma ofString_write_cons (p : Phoneme) (ps : List Phoneme) :
    Bytes.ofString (write (p :: ps)) = Bytes.ofString (writeOne p) ++ Bytes.ofString (write ps) := by
  rw [write, List.map_cons, String.join_cons, Bytes.ofString_append]
  rfl

/-- A stress mark is one that may begin a phoneme, if there is one. -/
lemma writeStress_cases (p : Phoneme) :
    writeStress p = "" ∨ ∃ b ∈ markBytes, b ≠ 0x5F ∧ b ≠ 0x3A ∧
      Bytes.ofString (writeStress p) = [b] := by
  unfold writeStress
  split_ifs
  · exact .inr ⟨0x22, by decide, by decide, by decide, rfl⟩
  · exact .inr ⟨0x25, by decide, by decide, by decide, rfl⟩
  · exact .inl rfl

lemma writeModifiers_cases (p : Phoneme) : writeModifiers p = "" ∨
    ∃ b ∈ markBytes, ∃ rest, Bytes.ofString (writeModifiers p) = b :: rest := by
  rw [writeModifiers_eq, writeAspiration]
  split
  · refine .inr ⟨0x5F, by decide, 0x68 :: Bytes.ofString (writeLength p), ?_⟩
    rw [Bytes.ofString_append]
    rfl
  · rw [String.empty_append, writeLength]
    split_ifs
    · exact .inr ⟨0x3A, by decide, _, rfl⟩
    · exact .inr ⟨0x3A, by decide, _, rfl⟩
    · exact .inl rfl

lemma clear_write {ps : List Phoneme} (h : ∀ p ∈ ps, Spelled p) :
    Clear (Bytes.ofString (write ps)) := by
  cases ps with
  | nil => exact fun b hb => by cases hb
  | cons p ps =>
    obtain ⟨s, hs, -, hbase⟩ := (h p List.mem_cons_self).exists_writeBase
    rw [ofString_write_cons, writeOne, Bytes.ofString_append, Bytes.ofString_append, hbase]
    rcases writeStress_cases p with hstress | ⟨b, hb, hne, hne', hstress⟩
    · rw [hstress]
      obtain ⟨b, rest, hbytes, hmark, hback, -⟩ := exists_first hs
      rw [hbytes]
      intro c hc
      cases hc
      exact ⟨fun heq => hmark (by rw [heq]; decide), fun heq => hmark (by rw [heq]; decide), hback⟩
    · rw [hstress]
      intro c hc
      cases hc
      exact ⟨hne, hne', by rintro rfl; revert hb; decide⟩

/-- A symbol ends where the next phoneme begins, unless both are one symbol together. -/
lemma ends_write {s : Symbol} (hs : s ∈ symbols) (hbase : writeBase p = s.text)
    {ps : List Phoneme} (hps : ∀ q ∈ ps, Spelled q) (hnone : ∀ q ∈ ps.head?, fused? p q = none) :
    Ends s (Bytes.ofString (writeModifiers p) ++ Bytes.ofString (write ps)) := by
  rcases writeModifiers_cases p with hmodifiers | ⟨b, hb, rest, hmodifiers⟩
  · rw [hmodifiers]
    cases ps with
    | nil => exact ends_nil s
    | cons q ps =>
      obtain ⟨t, ht, -, hbase'⟩ := (hps q List.mem_cons_self).exists_writeBase
      rw [ofString_write_cons, writeOne, Bytes.ofString_append, Bytes.ofString_append]
      rcases writeStress_cases q with hstress | ⟨b, hb, -, -, hstress⟩
      · have hpair := hnone q rfl
        rw [fused?, hmodifiers, hstress, hbase, hbase', String.append_empty,
          String.empty_append] at hpair
        rw [hstress, hbase', List.append_assoc]
        exact ends_symbol hs ht hpair
      · rw [hstress]
        exact ends_of_mark hs hb
  · rw [hmodifiers]
    exact ends_of_mark hs hb

lemma fused?_eq_some (hp : Spelled p) (hq : Spelled q) {s : Symbol} (h : fused? p q = some s) :
    s ∈ symbols ∧ writeOne p ++ writeOne q = writeStress p ++ s.text ++ writeModifiers q ∧
      2 ≤ (Bytes.ofString s.text).length := by
  have htext : s.text = writeBase p ++ writeModifiers p ++ (writeStress q ++ writeBase q) := by
    simpa using List.find?_some h
  refine ⟨List.mem_of_find?_eq_some h, ?_, ?_⟩
  · rw [htext, writeOne, writeOne]
    simp only [String.append_assoc]
  · obtain ⟨t, ht, -, hbase⟩ := hp.exists_writeBase
    obtain ⟨u, hu, -, hbase'⟩ := hq.exists_writeBase
    have hpos := length_text_pos ht
    have hpos' := length_text_pos hu
    rw [htext, hbase, hbase']
    simp only [Bytes.ofString_append, List.length_append]
    omega

/-- No other two phonemes are written as one symbol. -/
lemma fused?_isSome_iff (hp : Spelled p) (hq : Spelled q) :
    (fused? p q).isSome = true ↔ Merges p q := by
  constructor
  · intro hfused
    obtain ⟨u, hfind⟩ := Option.isSome_iff_exists.mp hfused
    obtain ⟨s, hs, -, hbase⟩ := hp.exists_writeBase
    obtain ⟨t, ht, -, hbase'⟩ := hq.exists_writeBase
    have hu := List.mem_of_find?_eq_some hfind
    have htext : u.text = s.text ++ writeModifiers p ++ (writeStress q ++ t.text) := by
      simpa [hbase, hbase'] using List.find?_some hfind
    have hlengths := congrArg (fun text => (Bytes.ofString text).length) htext
    simp only [Bytes.ofString_append, List.length_append] at hlengths
    have hle := length_text_le hu
    have hpos := length_text_pos hs
    have hpos' := length_text_pos ht
    -- two bytes have room for two symbols only
    have hmodifiers : writeModifiers p = "" := by
      refine (writeModifiers_cases p).resolve_right ?_
      rintro ⟨b, -, rest, hb⟩
      rw [hb, List.length_cons] at hlengths
      omega
    have hstress : writeStress q = "" := by
      refine (writeStress_cases q).resolve_right ?_
      rintro ⟨b, -, -, -, hb⟩
      rw [hb, List.length_singleton] at hlengths
      omega
    rw [hmodifiers, hstress, String.append_empty, String.empty_append] at htext
    refine ⟨hmodifiers, hstress, ?_⟩
    rw [hbase, hbase']
    exact mem_of_text_eq_append hu hs ht htext
  · rintro ⟨hmodifiers, hstress, hpair⟩
    simp only [List.mem_cons, List.not_mem_nil, or_false, Prod.mk.injEq] at hpair
    rcases hpair with ⟨hs, ht⟩ | ⟨hs, ht⟩
    · rw [fused?, hmodifiers, hstress, hs, ht]
      decide +kernel
    · rw [fused?, hmodifiers, hstress, hs, ht]
      decide +kernel

/-- A phoneme is read as it was written, unless the next one makes one symbol with it. -/
lemma parseRest_write_cons (hp : Spelled p) {ps : List Phoneme} (hps : ∀ q ∈ ps, Spelled q)
    (hnone : ∀ q ∈ ps.head?, fused? p q = none) (size : Nat) (read : List Phoneme) :
    parseRest size 0 read (Bytes.ofString (write (p :: ps))) =
      parseRest size 0 (p :: read) (Bytes.ofString (write ps)) := by
  obtain ⟨s, hs, hbits, hbase⟩ := hp.exists_writeBase
  rw [ofString_write_cons, writeOne, hbase, parseRest_assemble hs hp.regular hp.regular
    (clear_write hps) (ends_write hs hbase hps hnone), assemble_self hbits]

lemma parseRest_write {ps : List Phoneme} (h : ∀ p ∈ ps, Spelled p) (size : Nat)
    (read : List Phoneme) :
    parseRest size 0 read (Bytes.ofString (write ps)) = .ok (read.reverse ++ joined ps) := by
  have hnil (read : List Phoneme) :
      parseRest size 0 read (Bytes.ofString (write [])) = .ok read.reverse := by
    show parseRest size 0 read [] = _
    rw [parseRest]
  fun_induction joined ps generalizing read with
  | case1 => rw [hnil, List.append_nil]
  | case2 p =>
    rw [parseRest_write_cons (h p List.mem_cons_self) (List.forall_mem_nil _) (by simp), hnil,
      List.reverse_cons]
  | case3 p q rest s hs ih =>
    obtain ⟨hp, hq, hrest⟩ : Spelled p ∧ Spelled q ∧ ∀ r ∈ rest, Spelled r := by
      simpa only [List.forall_mem_cons] using h
    -- two symbols leave no room for a third one in theirs, so that one ends there
    obtain ⟨hmem, htext, hlength⟩ := fused?_eq_some hp hq hs
    rw [ofString_write_cons, ofString_write_cons, ← List.append_assoc, ← Bytes.ofString_append,
      htext, parseRest_assemble hmem hp.regular hq.regular (clear_write hrest)
        (ends_of_length hlength), ih hrest]
    simp
  | case4 p q rest hnone ih =>
    obtain ⟨hp, hps⟩ := List.forall_mem_cons.mp h
    rw [parseRest_write_cons hp hps (by simpa using hnone), ih hps]
    simp

lemma length_joined_le (ps : List Phoneme) : (joined ps).length ≤ ps.length := by
  fun_induction joined ps with
  | case1 => exact Nat.le_refl _
  | case2 => exact Nat.le_refl _
  | case3 p q rest s hs ih =>
    simp only [List.length_cons]
    omega
  | case4 p q rest hnone ih =>
    simp only [List.length_cons] at ih ⊢
    omega

/-- Phonemes are left as they are where no two that follow one another are written as one symbol. -/
lemma joined_eq_self_iff {ps : List Phoneme} (h : ∀ p ∈ ps, Spelled p) :
    joined ps = ps ↔ ps.IsChain fun p q => ¬Merges p q := by
  fun_induction joined ps with
  | case1 => simp
  | case2 => simp
  | case3 p q rest s hs ih =>
    obtain ⟨hp, hq, -⟩ : Spelled p ∧ Spelled q ∧ ∀ r ∈ rest, Spelled r := by
      simpa only [List.forall_mem_cons] using h
    have hmerges : Merges p q := (fused?_isSome_iff hp hq).mp (by rw [hs]; rfl)
    have hne : assemble s p q :: joined rest ≠ p :: q :: rest := by
      intro heq
      have hlength := congrArg List.length heq
      have hle := length_joined_le rest
      simp only [List.length_cons] at hlength
      omega
    simp [hne, hmerges]
  | case4 p q rest hnone ih =>
    obtain ⟨hp, hps⟩ := List.forall_mem_cons.mp h
    have hmerges : ¬Merges p q := by
      rw [← fused?_isSome_iff hp (hps q List.mem_cons_self), hnone]
      exact Bool.false_ne_true
    simp [hmerges, ih hps]

end Joined

/-- What is read from X-SAMPA can be written and read again, but two phonemes one behind the other that
are written as one symbol come back as that: the phonemes are the same exactly where none is a plain `t`
right before an unstressed `S`, or `d` before `Z`. -/
theorem parse_write_eq_joined {text : Bytes} {ps : List Phoneme} (h : parse text = .ok ps) :
    parse (Bytes.ofString (write ps)) = .ok (joined ps) ∧
      (joined ps = ps ↔ ps.IsChain fun p q => ¬Merges p q) := by
  have hspelled := spelled_of_parse h
  exact ⟨parseRest_write hspelled _ [], joined_eq_self_iff hspelled⟩

/-- A plain `t` before `S:` comes back as a long `tS`, an aspirated one as itself. -/
theorem parse_write_of_plosives :
    parse (Bytes.ofString "\"t S: t_h S") =
        .ok [⟨0x8001411⟩, ⟨0x4005511⟩, ⟨0x1001411⟩, ⟨0x5511⟩] ∧
      parse (Bytes.ofString (write [⟨0x8001411⟩, ⟨0x4005511⟩, ⟨0x1001411⟩, ⟨0x5511⟩])) =
        .ok [⟨0xC008511⟩, ⟨0x1001411⟩, ⟨0x5511⟩] := by
  have hread : parse (Bytes.ofString "\"t S: t_h S") =
      .ok [⟨0x8001411⟩, ⟨0x4005511⟩, ⟨0x1001411⟩, ⟨0x5511⟩] := by decide +kernel
  have hjoined : joined [⟨0x8001411⟩, ⟨0x4005511⟩, ⟨0x1001411⟩, ⟨0x5511⟩] =
      [⟨0xC008511⟩, ⟨0x1001411⟩, ⟨0x5511⟩] := by decide +kernel
  exact ⟨hread, hjoined ▸ (parse_write_eq_joined hread).1⟩

/-- The two sounds of `t S` come back as one. -/
theorem parse_write_joins : parse (Bytes.ofString "t S") = .ok [⟨0x1411⟩, ⟨0x5511⟩] ∧
    parse (Bytes.ofString (write [⟨0x1411⟩, ⟨0x5511⟩])) = .ok [⟨0x8511⟩] := by
  decide +kernel

end LetterToSound.XSampa
