import Mathlib
import LetterToSound.Proofs.Phoneme.ZeroBytes

/-!
# Which patterns are accepted, and how they are told apart

A source is accepted exactly if it is written by parts that hold what may stand in them, and there is
only one way to cut it into such parts. The stored bytes can be read back: the guard and the parts are
found in them again, except that a right context does not tell an empty left context from none.
-/

namespace LetterToSound

open Pattern

namespace FeatureSpec

/-- A list of features has no parentheses, and no other list starts in it. -/
lemma operators_not_mem_of_parse {list : Bytes} {spec : FeatureSpec} (h : parse list = .ok spec) :
    leftMark ∉ list ∧ rightMark ∉ list ∧ openLookahead ∉ list :=
  ⟨not_mem_of_parse (by decide) (by decide) (by decide) (by decide +kernel) h,
    not_mem_of_parse (by decide) (by decide) (by decide) (by decide +kernel) h,
    not_mem_of_parse (by decide) (by decide) (by decide) (by decide +kernel) h⟩

end FeatureSpec

namespace SourcePattern

/-- An anchor starts with a byte that is no capital letter, no mark of a guard and no operator, and goes
on with bytes that are no operators. -/
def IsAnchor (anchor : Bytes) : Prop :=
  ∃ first rest, anchor = first :: rest ∧ ¬(0x41 ≤ first ∧ first ≤ 0x5A) ∧
    first ∉ [Polarity.set.byte, Polarity.unset.byte, boundary, leftMark, rightMark, openLookahead] ∧
    ∀ b ∈ rest, b ∉ [boundary, leftMark, rightMark, openLookahead]

/-- A context asks for the next phoneme once: it holds one list of features in braces. -/
def AsksOnce (context : Bytes) : Prop :=
  ∃ before list after, context = before ++ openLookahead :: (list ++ closeLookahead :: after) ∧
    openLookahead ∉ before ∧ closeLookahead ∉ list ∧ openLookahead ∉ after ∧
    ∃ spec, FeatureSpec.parse list = .ok spec

/-- Parts that hold what may stand in them. Only a right context asks for the next phoneme, where
`lookahead` allows it. -/
structure WellFormed (lookahead : Bool) (p : SourcePattern) : Prop where
  anchor : IsAnchor p.anchor
  left : ∀ left ∈ p.left, leftMark ∉ left ∧ rightMark ∉ left ∧ openLookahead ∉ left
  right : ∀ right ∈ p.right, leftMark ∉ right ∧ rightMark ∉ right ∧
    (openLookahead ∈ right → lookahead = true ∧ AsksOnce right)

section Checks

variable {lookahead seen : Bool} {anchor context : Bytes} {group b : UInt8}

lemma startsAnchor_iff : startsAnchor b = true ↔ ¬(0x41 ≤ b ∧ b ≤ 0x5A) ∧
    b ∉ [Polarity.set.byte, Polarity.unset.byte, boundary, leftMark, rightMark, openLookahead] := by
  have hclass : isClassId b = true ↔ 0x41 ≤ b ∧ b ≤ 0x5A := by
    rw [isClassId, Bool.and_eq_true, decide_eq_true_eq, decide_eq_true_eq]
  rw [startsAnchor, Bool.and_eq_true, Bool.not_eq_true', decide_eq_true_eq, ← hclass,
    Bool.not_eq_true]
  rfl

lemma checkAnchor_eq_ok_iff : checkAnchor anchor = .ok group ↔
    IsAnchor anchor ∧ anchor.head? = some group := by
  cases anchor with
  | nil => exact iff_of_false nofun nofun
  | cons first rest =>
    have hrest : rest.find? (!continuesAnchor ·) = none ↔
        ∀ b ∈ rest, b ∉ [boundary, leftMark, rightMark, openLookahead] := by
      simp [List.find?_eq_none, continuesAnchor]
    have hanchor : IsAnchor (first :: rest) ↔
        startsAnchor first = true ∧ rest.find? (!continuesAnchor ·) = none := by
      rw [startsAnchor_iff, hrest, and_assoc]
      refine ⟨?_, fun h => ⟨first, rest, rfl, h⟩⟩
      rintro ⟨_, _, heq, h⟩
      cases heq
      exact h
    rw [hanchor, checkAnchor, List.head?_cons, Option.some.injEq]
    cases startsAnchor first with
    | false => simp
    | true =>
      cases hfind : rest.find? (!continuesAnchor ·) with
      | none => simp
      | some b => simp

lemma asksOnce_cons_of_ne (hb : b ≠ openLookahead) :
    AsksOnce (b :: context) ↔ AsksOnce context := by
  constructor
  · rintro ⟨before, list, after, heq, hbefore, hrest⟩
    cases before with
    | nil => exact absurd (List.cons.inj heq).1 hb
    | cons c before =>
      exact ⟨before, list, after, (List.cons.inj heq).2,
        fun hmem => hbefore (List.mem_cons_of_mem _ hmem), hrest⟩
  · rintro ⟨before, list, after, rfl, hbefore, hrest⟩
    refine ⟨b :: before, list, after, rfl, fun hmem => ?_, hrest⟩
    exact (List.mem_cons.mp hmem).elim (fun heq => hb heq.symm) hbefore

lemma asksOnce_open : AsksOnce (openLookahead :: context) ↔
    ∃ list after, context = list ++ closeLookahead :: after ∧ closeLookahead ∉ list ∧
      openLookahead ∉ after ∧ ∃ spec, FeatureSpec.parse list = .ok spec := by
  constructor
  · rintro ⟨before, list, after, heq, hbefore, hrest⟩
    cases before with
    | nil => exact ⟨list, after, (List.cons.inj heq).2, hrest⟩
    | cons c before =>
      rw [(List.cons.inj heq).1] at hbefore
      exact absurd List.mem_cons_self hbefore
  · rintro ⟨list, after, rfl, hrest⟩
    exact ⟨[], list, after, rfl, List.not_mem_nil, hrest⟩

/-- A context is accepted if it has no parentheses, and asks at most once and only if it may. -/
lemma checkContext_eq_ok_iff : checkContext lookahead seen context = .ok () ↔
    leftMark ∉ context ∧ rightMark ∉ context ∧
      (openLookahead ∈ context → lookahead = true ∧ seen = false ∧ AsksOnce context) := by
  fun_induction checkContext lookahead seen context with
  | case1 => simp
  | case2 seen b rest hmark =>
    refine iff_of_false (by simp) ?_
    rintro ⟨hleft, hright, -⟩
    rcases hmark with rfl | rfl
    · exact hleft List.mem_cons_self
    · exact hright List.mem_cons_self
  | case3 seen rest hlookahead hmark =>
    refine iff_of_false (by simp) ?_
    rintro ⟨-, -, hask⟩
    rw [(hask List.mem_cons_self).1] at hlookahead
    cases hlookahead
  | case4 rest hlookahead hmark =>
    refine iff_of_false (by simp) ?_
    rintro ⟨-, -, hask⟩
    cases (hask List.mem_cons_self).2.1
  | case5 seen rest hlookahead hseen hsplit hmark =>
    refine iff_of_false (by simp) ?_
    rintro ⟨-, -, hask⟩
    obtain ⟨list, after, rfl, hlist, -⟩ := asksOnce_open.mp (hask List.mem_cons_self).2.2
    rw [splitGroup?_append_cons after hlist] at hsplit
    cases hsplit
  | case6 seen rest hlookahead hseen inside tail hsplit cause hspec hmark =>
    refine iff_of_false (by simp) ?_
    rintro ⟨-, -, hask⟩
    obtain ⟨list, after, rfl, hlist, -, spec, hparse⟩ :=
      asksOnce_open.mp (hask List.mem_cons_self).2.2
    rw [splitGroup?_append_cons after hlist] at hsplit
    cases hsplit
    cases hspec.symm.trans hparse
  | case7 seen rest hlookahead hseen inside tail hsplit spec hspec hmark ih =>
    obtain ⟨rfl, hinside⟩ := eq_of_splitGroup? hsplit
    obtain ⟨hleft, hright, hopen⟩ := FeatureSpec.operators_not_mem_of_parse hspec
    have hmem {b : UInt8} (hb : b ∈ tail) :
        b ∈ openLookahead :: (inside ++ closeLookahead :: tail) := by
      simp [hb]
    -- What stands behind the list is checked as a context that has asked, so it must not ask again.
    rw [ih]
    constructor
    · rintro ⟨hleft', hright', hask⟩
      have hopen' : openLookahead ∉ tail := by
        intro hmem
        cases (hask hmem).2.1
      have hne : leftMark ≠ openLookahead ∧ leftMark ≠ closeLookahead ∧
          rightMark ≠ openLookahead ∧ rightMark ≠ closeLookahead := by decide
      refine ⟨by simp [hleft, hleft', hne], by simp [hright, hright', hne], fun _ =>
        ⟨by simpa using hlookahead, by simpa using hseen, ?_⟩⟩
      exact asksOnce_open.mpr ⟨inside, tail, rfl, hinside, hopen', spec, hspec⟩
    · rintro ⟨hleft', hright', hask⟩
      obtain ⟨list, after, heq, hlist, hafter, -⟩ :=
        asksOnce_open.mp (hask List.mem_cons_self).2.2
      obtain ⟨rfl, rfl⟩ := eq_of_append_cons_eq hinside hlist heq
      exact ⟨fun h => hleft' (hmem h), fun h => hright' (hmem h), fun h => absurd h hafter⟩
  | case8 seen b rest hmark hopen ih =>
    obtain ⟨hleft, hright⟩ := not_or.mp hmark
    rw [ih, asksOnce_cons_of_ne hopen]
    simp only [List.mem_cons, Ne.symm hleft, Ne.symm hright, Ne.symm hopen, false_or]

lemma forall_mem_iff_getD {o : Option Bytes} {P : Bytes → Prop} (hnil : P []) :
    (∀ bytes ∈ o, P bytes) ↔ P (o.getD []) := by
  cases o <;> simp [hnil]

/-- The checks accept the parts that hold what may stand in them. -/
lemma check_eq_ok_iff {p : SourcePattern} : p.check lookahead = .ok group ↔
    p.WellFormed lookahead ∧ p.anchor.head? = some group := by
  have hleft : (∀ left ∈ p.left, leftMark ∉ left ∧ rightMark ∉ left ∧ openLookahead ∉ left) ↔
      checkContext false false (p.left.getD []) = .ok () := by
    rw [checkContext_eq_ok_iff, forall_mem_iff_getD (by simp)]
    simp
  have hright : (∀ right ∈ p.right, leftMark ∉ right ∧ rightMark ∉ right ∧
      (openLookahead ∈ right → lookahead = true ∧ AsksOnce right)) ↔
        checkContext lookahead false (p.right.getD []) = .ok () := by
    rw [checkContext_eq_ok_iff, forall_mem_iff_getD (by simp)]
    simp
  constructor
  · intro h
    obtain ⟨group', hanchor, h⟩ := Outcome.exists_of_bind_eq_ok h
    obtain ⟨_, hl, h⟩ := Outcome.exists_of_bind_eq_ok h
    obtain ⟨_, hr, h⟩ := Outcome.exists_of_bind_eq_ok h
    cases h
    obtain ⟨hanchor, hgroup⟩ := checkAnchor_eq_ok_iff.mp hanchor
    exact ⟨⟨hanchor, hleft.mpr hl, hright.mpr hr⟩, hgroup⟩
  · rintro ⟨⟨hanchor, hl, hr⟩, hgroup⟩
    rw [check, Outcome.bind_eq_of_ok (checkAnchor_eq_ok_iff.mpr ⟨hanchor, hgroup⟩),
      Outcome.bind_eq_of_ok (hleft.mp hl), Outcome.bind_eq_of_ok (hright.mp hr)]
    rfl

end Checks

section Parts

variable {lookahead : Bool} {p : SourcePattern} {anchor : Bytes}

lemma IsAnchor.marks_not_mem (h : IsAnchor anchor) : leftMark ∉ anchor ∧ rightMark ∉ anchor := by
  obtain ⟨first, rest, rfl, -, hfirst, hrest⟩ := h
  constructor
  · rintro (_ | ⟨_, hmem⟩)
    · exact absurd hfirst (by decide)
    · exact absurd (hrest _ hmem) (by decide)
  · rintro (_ | ⟨_, hmem⟩)
    · exact absurd hfirst (by decide)
    · exact absurd (hrest _ hmem) (by decide)

lemma WellFormed.separated (h : p.WellFormed lookahead) : p.Separated :=
  ⟨fun left hleft => ⟨(h.left left hleft).1, (h.left left hleft).2.1⟩, h.anchor.marks_not_mem,
    fun right hright hlast => (h.right right hright).1 (List.mem_of_getLast? hlast)⟩

/-- What the stored bytes tell of a pattern: behind a right context, an empty left context is like
none. -/
def told (p : SourcePattern) : SourcePattern :=
  { p with left := if p.right.isSome then some (p.left.getD []) else p.left }

lemma told_eq_told_iff {p p' : SourcePattern} : p.told = p'.told ↔
    p.anchor = p'.anchor ∧ p.right = p'.right ∧ p.left.getD [] = p'.left.getD [] ∧
      (p.right = none → p.left = p'.left) := by
  obtain ⟨left, anchor, right⟩ := p
  obtain ⟨left', anchor', right'⟩ := p'
  cases right <;> cases right' <;> simp [told] <;> tauto

end Parts

end SourcePattern

namespace StoredPattern

/-- The guard in front of stored bytes, and what stands behind it. -/
def splitGuard : Bytes → Option Guard × Bytes
  | b :: id :: rest =>
    match Polarity.ofByte? b with
    | some polarity => (some ⟨polarity, id⟩, rest)
    | none => (none, b :: id :: rest)
  | bytes => (none, bytes)

/-- Whether a byte is no parenthesis. -/
def isInner (b : UInt8) : Bool := b != leftMark && b != rightMark

/-- The parts of stored bytes without a guard, cut at the parentheses. -/
def parts (body : Bytes) : SourcePattern :=
  let anchor := body.takeWhile isInner
  match body.dropWhile isInner with
  | [] => ⟨none, anchor, none⟩
  | mark :: rest =>
    if mark = leftMark then ⟨some rest.reverse, anchor, none⟩
    else ⟨some (rest.dropWhile (· != leftMark)).tail.reverse, anchor,
      some (rest.takeWhile (· != leftMark))⟩

/-- The guard and the parts that stored bytes have been made from. -/
def decode (bytes : Bytes) : Option Guard × SourcePattern :=
  ((splitGuard bytes).1, parts (splitGuard bytes).2)

section Decoding

variable {lookahead : Bool} {p : SourcePattern} {guard : Option Guard}

lemma splitGuard_encode (hp : SourcePattern.IsAnchor p.anchor) (guard : Option Guard) :
    splitGuard (encode guard p) = (guard, p.anchor ++ contextBytes p.left p.right) := by
  cases guard with
  | some g =>
    change splitGuard (g.polarity.byte :: g.id :: _) = _
    rw [splitGuard, Polarity.ofByte?_byte]
    rfl
  | none =>
    -- No anchor starts with the mark of a guard, so none is found where there is none.
    obtain ⟨first, rest, hanchor, hclass, hfirst, -⟩ := hp
    have hnone := ofByte?_of_startsAnchor (SourcePattern.startsAnchor_iff.mpr ⟨hclass, hfirst⟩)
    rw [encode, Option.elim_none, List.nil_append, hanchor, List.cons_append]
    cases rest ++ contextBytes p.left p.right with
    | nil => rfl
    | cons id rest => rw [splitGuard, hnone]

lemma isInner_of_mem {anchor : Bytes} (h : leftMark ∉ anchor ∧ rightMark ∉ anchor) :
    ∀ b ∈ anchor, isInner b = true := by
  intro b hb
  rw [isInner, Bool.and_eq_true, bne_iff_ne, bne_iff_ne]
  exact ⟨fun heq => h.1 (heq ▸ hb), fun heq => h.2 (heq ▸ hb)⟩

/-- Stored bytes are cut at the first parenthesis. -/
lemma parts_mark {anchor rest : Bytes} {mark : UInt8}
    (hanchor : leftMark ∉ anchor ∧ rightMark ∉ anchor) (hmark : isInner mark = false) :
    parts (anchor ++ mark :: rest) =
      if mark = leftMark then ⟨some rest.reverse, anchor, none⟩
      else ⟨some (rest.dropWhile (· != leftMark)).tail.reverse, anchor,
        some (rest.takeWhile (· != leftMark))⟩ := by
  have hcut : ¬isInner mark = true := by rw [hmark]; exact Bool.false_ne_true
  have hinner := isInner_of_mem hanchor
  rw [parts, List.takeWhile_append_of_pos hinner, List.dropWhile_append_of_pos hinner,
    List.takeWhile_cons_of_neg hcut, List.dropWhile_cons_of_neg hcut, List.append_nil]

lemma parts_append (hanchor : leftMark ∉ p.anchor ∧ rightMark ∉ p.anchor)
    (hright : ∀ right ∈ p.right, leftMark ∉ right) :
    parts (p.anchor ++ contextBytes p.left p.right) = p.told := by
  obtain ⟨left, anchor, right⟩ := p
  cases right with
  | none =>
    cases left with
    | none =>
      have hinner := isInner_of_mem hanchor
      rw [contextBytes, List.append_nil, parts, List.takeWhile_eq_self_iff.mpr hinner,
        List.dropWhile_eq_nil_iff.mpr hinner]
      rfl
    | some left =>
      rw [contextBytes, parts_mark hanchor (by decide), if_pos rfl, List.reverse_reverse]
      rfl
  | some right =>
    rw [contextBytes, parts_mark hanchor (by decide), if_neg (by decide),
      SourcePattern.dropWhile_ne _ (hright right rfl), SourcePattern.takeWhile_ne _ (hright right rfl),
      List.tail_cons, List.reverse_reverse]
    rfl

/-- The stored bytes are read back. -/
theorem decode_encode (hp : p.WellFormed lookahead) (guard : Option Guard) :
    decode (encode guard p) = (guard, p.told) := by
  rw [decode, splitGuard_encode hp.anchor,
    parts_append hp.anchor.marks_not_mem fun right hright => (hp.right right hright).1]

end Decoding

section Sources

variable {lookahead lookahead' : Bool} {p p' : SourcePattern} {source source' : Bytes}
  {guard guard' : Option Guard} {stored stored' : StoredPattern}

/-- A source that is written by parts that hold what may stand in them is stored as these. -/
lemma exists_ofSource_eq (hp : p.WellFormed lookahead) (h : p.Spells source)
    (guard : Option Guard) : ∃ group, p.anchor.head? = some group ∧
      ofSource source guard lookahead = .ok ⟨group, encode guard p⟩ := by
  obtain ⟨first, rest, hanchor, -⟩ := hp.anchor
  have hgroup : p.anchor.head? = some first := by
    rw [hanchor]
    rfl
  refine ⟨first, hgroup, ?_⟩
  rw [ofSource, SourcePattern.split_eq_of_spells hp.separated h,
    SourcePattern.check_eq_ok_iff.mpr ⟨hp, hgroup⟩]
  rfl

/-- A source that is accepted is written by the parts that it is cut into. -/
lemma wellFormed_split (h : ofSource source guard lookahead = .ok stored) :
    (SourcePattern.split source).WellFormed lookahead :=
  (SourcePattern.check_eq_ok_iff.mp (ofSource_ok h).1).1

lemma bytes_eq_encode (hp : p.WellFormed lookahead) (hspells : p.Spells source)
    (h : ofSource source guard lookahead = .ok stored) : stored.bytes = encode guard p := by
  obtain ⟨group, -, hstored⟩ := exists_ofSource_eq hp hspells guard
  cases h.symm.trans hstored
  rfl

lemma encode_told (guard : Option Guard) (p : SourcePattern) :
    encode guard p.told = encode guard p := by
  obtain ⟨left, anchor, right⟩ := p
  cases left <;> cases right <;> rfl

/-- The stored bytes of two patterns are the same if and only if they tell the same. -/
lemma encode_eq_encode_iff (hp : p.WellFormed lookahead) (hp' : p'.WellFormed lookahead') :
    encode guard p = encode guard' p' ↔ guard = guard' ∧ p.told = p'.told := by
  constructor
  · intro h
    rw [← Prod.mk.injEq, ← decode_encode hp, h, decode_encode hp']
  · rintro ⟨rfl, htold⟩
    rw [← encode_told, htold, encode_told]

/-- A source is accepted if and only if it is written by parts that hold what may stand in them; there
is only one way to cut it so, and it is stored as these parts. The stored bytes tell the guard and all
parts, except that a right context does not tell an empty left context from none. -/
theorem stored_iff_spelled (source : Bytes) (lookahead : Bool) :
    (∀ guard, (∃ stored, ofSource source guard lookahead = .ok stored) ↔
      ∃ p : SourcePattern, p.WellFormed lookahead ∧ p.Spells source) ∧
    (∀ p p' : SourcePattern, p.WellFormed lookahead → p.Spells source →
      p'.WellFormed lookahead → p'.Spells source → p = p') ∧
    (∀ p : SourcePattern, p.WellFormed lookahead → p.Spells source → ∀ guard,
      ∃ group, p.anchor.head? = some group ∧
        ofSource source guard lookahead = .ok ⟨group, encode guard p⟩ ∧
        decode (encode guard p) = (guard, p.told)) ∧
    (∀ source' lookahead' guard guard' stored stored',
      ofSource source guard lookahead = .ok stored →
      ofSource source' guard' lookahead' = .ok stored' →
      ∀ p p' : SourcePattern, p.WellFormed lookahead → p.Spells source →
        p'.WellFormed lookahead' → p'.Spells source' →
        (stored.bytes = stored'.bytes ↔ guard = guard' ∧ p.anchor = p'.anchor ∧
          p.right = p'.right ∧ p.left.getD [] = p'.left.getD [] ∧
          (p.right = none → p.left = p'.left))) ∧
    ∀ list, openLookahead ∈ list → ∀ spec, FeatureSpec.parse list ≠ .ok spec := by
  refine ⟨fun guard => ⟨?_, ?_⟩, fun p p' hp h hp' h' => ?_, fun p hp h guard => ?_, ?_, ?_⟩
  · rintro ⟨stored, h⟩
    exact ⟨_, wellFormed_split h, SourcePattern.spells_split source⟩
  · rintro ⟨p, hp, h⟩
    obtain ⟨group, -, hstored⟩ := exists_ofSource_eq hp h guard
    exact ⟨_, hstored⟩
  · rw [← SourcePattern.split_eq_of_spells hp.separated h,
      SourcePattern.split_eq_of_spells hp'.separated h']
  · obtain ⟨group, hgroup, hstored⟩ := exists_ofSource_eq hp h guard
    exact ⟨group, hgroup, hstored, decode_encode hp guard⟩
  · intro source' lookahead' guard guard' stored stored' hstored hstored' p p' hp h hp' h'
    rw [bytes_eq_encode hp h hstored, bytes_eq_encode hp' h' hstored', encode_eq_encode_iff hp hp',
      SourcePattern.told_eq_told_iff]
  · exact fun list hmem spec hspec => (FeatureSpec.operators_not_mem_of_parse hspec).2.2 hmem

/-- The guard of a pattern may be the condition that is numbered like a parenthesis. -/
theorem stored_iff_spelled_guarded :
    (SourcePattern.mk (some [0x43]) [0x61] (some (Bytes.ofString "{vcd}b"))).WellFormed true ∧
    (SourcePattern.mk (some [0x43]) [0x61] (some (Bytes.ofString "{vcd}b"))).Spells
      (Bytes.ofString "C)a({vcd}b)") ∧
    ∃ group, ofSource (Bytes.ofString "C)a({vcd}b)") (some ⟨.set, rightMark⟩) true =
        .ok ⟨group, Bytes.ofString "@(a({vcd}b)C"⟩ := by
  have hright : Bytes.ofString "{vcd}b" =
      openLookahead :: ([0x76, 0x63, 0x64] ++ closeLookahead :: [0x62]) := by decide +kernel
  have hp : (SourcePattern.mk (some [0x43]) [0x61] (some (Bytes.ofString "{vcd}b"))).WellFormed
      true := by
    refine ⟨⟨0x61, [], rfl, by decide, by decide, by simp⟩, fun left hleft => ?_,
      fun right hr => ?_⟩
    · cases hleft
      decide
    · cases hr
      refine ⟨by decide +kernel, by decide +kernel, fun _ => ⟨rfl, ?_⟩⟩
      exact ⟨[], _, _, hright, by decide, by decide, by decide, ⟨⟨32, 48⟩, by decide +kernel⟩⟩
  have hspells : (SourcePattern.mk (some [0x43]) [0x61] (some (Bytes.ofString "{vcd}b"))).Spells
      (Bytes.ofString "C)a({vcd}b)") := ⟨[leftMark], .inr rfl, by decide +kernel⟩
  obtain ⟨group, -, hstored, -⟩ :=
    (stored_iff_spelled _ true).2.2.1 _ hp hspells (some ⟨.set, rightMark⟩)
  have hbytes : encode (some ⟨.set, rightMark⟩) ⟨some [0x43], [0x61],
      some (Bytes.ofString "{vcd}b")⟩ = Bytes.ofString "@(a({vcd}b)C" := by decide +kernel
  exact ⟨hp, hspells, group, hbytes ▸ hstored⟩

end Sources

end StoredPattern

end LetterToSound
