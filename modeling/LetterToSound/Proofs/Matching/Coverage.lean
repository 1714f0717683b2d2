import Mathlib
import LetterToSound.Proofs.Matching.Dispatch

/-!
# Covering a text

A rule that fits reads at least the byte of its group, and nothing behind the end of the text. So a
matcher that goes on behind what it has read visits higher and higher positions, comes to the end of
the text exactly, and gives one piece for every position that it has visited.
-/

namespace LetterToSound

namespace Place

variable {p : Place} {text : Bytes} {position count : Nat}

lemma ofPosition_position (p : Place) : ofPosition p.text p.position = p := by
  obtain ⟨behind, ahead⟩ := p
  simp [ofPosition, text, Place.position]

lemma position_add_length (p : Place) : p.position + p.ahead.length = p.text.length := by
  simp [Place.position, Place.text]

lemma position_advance (h : count ≤ p.ahead.length) :
    (p.advance count).position = p.position + count := by
  simp only [advance, Place.position, List.length_append, List.length_reverse, List.length_take]
  omega

lemma position_ofPosition (h : position ≤ text.length) :
    (ofPosition text position).position = position := by
  simp [ofPosition, Place.position, h]

lemma length_ahead_ofPosition (text : Bytes) (position : Nat) :
    (ofPosition text position).ahead.length = text.length - position := by
  simp [ofPosition]

end Place

namespace Matching

open LetterToSound.Language

section Progress

variable {ε : Type} {s : Setting} {ask : Option (Lookahead ε)} {p : Place}

lemma length_of_firstMember {members : List Bytes} {text rest : Bytes} {length : Nat}
    (h : firstMember members text = some (length, rest)) : length + rest.length = text.length := by
  rw [firstMember_eq] at h
  obtain ⟨m, hm, hpair⟩ := Option.map_eq_some_iff.mp h
  have hprefix : m.isPrefixOf text = true := by simpa using List.find?_some hm
  have hle := (List.isPrefixOf_iff_prefix.mp hprefix).length_le
  cases hpair
  rw [List.length_drop]
  omega

/-- The anchor has read some of the text ahead, at least `least` bytes of it. -/
structure Cursors.Within (least : Nat) (p : Place) (c : Cursors) : Prop where
  least : least ≤ c.consumed
  ahead : c.consumed + c.anchor.length = p.ahead.length

namespace Cursors.Within

variable {c c' : Cursors} {least : Nat}

lemma startRight (h : c.Within least p) : c.startRight.Within least p := ⟨h.least, h.ahead⟩

lemma startLeft (h : c.Within least p) : (c.startLeft p).Within least p := ⟨h.least, h.ahead⟩

/-- What one byte of a pattern reads keeps the anchor in the text. -/
lemma read {members : List Bytes} (h : c.Within least p) (hread : c.read members = some c') :
    c'.Within least p := by
  have hleast := h.least
  have hahead := h.ahead
  unfold Cursors.read at hread
  split at hread
  · obtain ⟨⟨length, rest⟩, hmember, rfl⟩ := Option.map_eq_some_iff.mp hread
    have hlength := length_of_firstMember hmember
    constructor
    · dsimp only
      omega
    · dsimp only
      omega
  · obtain ⟨found, -, rfl⟩ := Option.map_eq_some_iff.mp hread
    exact ⟨hleast, hahead⟩
  · obtain ⟨found, -, rfl⟩ := Option.map_eq_some_iff.mp hread
    exact ⟨hleast, hahead⟩

/-- A pattern that fits has read a part of the text ahead. -/
lemma of_readPattern {pattern : Bytes} {n : Nat} (hc : c.Within least p)
    (h : readPattern s ask p c pattern = .ok (some n)) : least ≤ n ∧ n ≤ p.ahead.length := by
  fun_induction readPattern s ask p c pattern with
  | case1 c =>
    obtain rfl : c.consumed = n := by simpa using h
    have hahead := hc.ahead
    exact ⟨hc.least, by omega⟩
  | case2 c rest ih => exact ih hc.startRight h
  | case3 c rest hright ih => exact ih hc.startLeft h
  | case4 c rest hright hleft hboundary ih => exact ih hc h
  | case5 => cases h
  | case6 => cases h
  | case7 c b rest hright hleft hboundary tail hanswer ih => exact ih hc h
  | case8 => cases h
  | case9 c b rest hright hleft hboundary hanswer c' hread ih => exact ih (hc.read hread) h
  | case10 => cases h

end Cursors.Within

/-- A rule that fits reads the byte of its group at least, and nothing behind the text. -/
lemma Grouped.length_of_fit {r : Rule} {n : Nat} (hr : Grouped r)
    (h : fit s ask p r.pattern = .ok (some n)) : 0 < n ∧ n ≤ p.ahead.length := by
  obtain ⟨meets, rest, hfit⟩ := hr.exists_fit_eq s
  rw [hfit] at h
  split at h
  · rename_i hhead
    have hlength : 1 + p.ahead.tail.length = p.ahead.length := by
      obtain ⟨tail, htail⟩ := List.head?_eq_some_iff.mp hhead.2
      rw [htail, List.tail_cons, List.length_cons, Nat.add_comm]
    exact Cursors.Within.of_readPattern ⟨Nat.le_refl 1, hlength⟩ h
  · cases h

lemma FirstFit.length {rules : List Rule} {r : Rule} {n : Nat} (hrules : ∀ r ∈ rules, Grouped r)
    (h : FirstFit s ask p rules (.ok (some (r, n)))) : 0 < n ∧ n ≤ p.ahead.length := by
  obtain ⟨before, after, heq, -, hr⟩ := h
  exact (hrules r (by simp [heq])).length_of_fit hr

end Progress

section Asking

variable {s : Setting} {p : Place}

/-- A pattern without a right context never asks, so it does not matter who would answer. -/
lemma exists_readPattern_eq {pattern : Bytes} {c : Cursors} (hc : c.phase ≠ .right)
    (hpattern : Pattern.rightMark ∉ pattern) :
    ∃ result, ∀ (ε : Type) (ask : Option (Lookahead ε)),
      readPattern s ask p c pattern = .ok result := by
  -- Only the missing mark would lead into a right context, so no byte on the way is a question.
  induction pattern generalizing c with
  | nil => exact ⟨some c.consumed, fun ε ask => by rw [readPattern]⟩
  | cons b rest ih =>
    have hb : b ≠ Pattern.rightMark := fun heq => hpattern (heq ▸ List.mem_cons_self)
    have hrest : Pattern.rightMark ∉ rest := fun hmem => hpattern (List.mem_cons_of_mem _ hmem)
    by_cases hleft : b = Pattern.leftMark
    · obtain ⟨result, hresult⟩ := ih (c := c.startLeft p) (by simp [Cursors.startLeft]) hrest
      exact ⟨result, fun ε ask => by rw [readPattern, if_neg hb, if_pos hleft, hresult]⟩
    by_cases hboundary : b = Pattern.boundary
    · obtain ⟨result, hresult⟩ := ih hc hrest
      refine ⟨if c.atBoundary then result else none, fun ε ask => ?_⟩
      rw [hboundary, readPattern_boundary, hresult]
      split <;> rfl
    have hmarks : b ≠ Pattern.boundary ∧ b ≠ Pattern.leftMark ∧ b ≠ Pattern.rightMark :=
      ⟨hboundary, hleft, hb⟩
    cases hread : c.read (s.members b) with
    | none => exact ⟨none, fun ε ask => by rw [readPattern_unasked hmarks (.inl hc), hread]⟩
    | some c' =>
      obtain ⟨result, hresult⟩ := ih (by rwa [phase_of_read hread]) hrest
      refine ⟨result, fun ε ask => ?_⟩
      rw [readPattern_unasked hmarks (.inl hc), hread]
      exact hresult ε ask

lemma exists_fit_eq {pattern : Bytes} (hpattern : StoredPattern.hasRightContext pattern = false) :
    ∃ result, ∀ (ε : Type) (ask : Option (Lookahead ε)), fit s ask p pattern = .ok result := by
  have hbody : Pattern.rightMark ∉ StoredPattern.body pattern := by
    simpa [StoredPattern.hasRightContext] using hpattern
  obtain ⟨result, hresult⟩ := exists_readPattern_eq (s := s) (p := p) (c := Cursors.start p)
    (by simp [Cursors.start]) hbody
  refine ⟨if s.admits pattern then result else none, fun ε ask => ?_⟩
  rw [fit, hresult]
  split <;> rfl

/-- The rules that a lookahead tries ask nothing themselves. -/
lemma exists_firstMatch_eq {rules : List (Bytes × Bytes)}
    (hrules : ∀ rule ∈ rules, StoredPattern.hasRightContext rule.1 = false) :
    ∃ result, ∀ (ε : Type) (ask : Option (Lookahead ε)), firstMatch s ask p rules = .ok result := by
  induction rules with
  | nil => exact ⟨none, fun ε ask => by rw [firstMatch]⟩
  | cons rule rules ih =>
    obtain ⟨hrule, hrules⟩ := List.forall_mem_cons.mp hrules
    obtain ⟨result, hresult⟩ := exists_fit_eq (s := s) (p := p) hrule
    obtain ⟨later, hlater⟩ := ih hrules
    cases result with
    | none => exact ⟨later, fun ε ask => by rw [firstMatch, hresult]; exact hlater ε ask⟩
    | some n => exact ⟨some ⟨n, rule.2⟩, fun ε ask => by rw [firstMatch, hresult]⟩

end Asking

section Trails

variable {α : Type} {step step' : Nat → Nat → α → Prop} {i j : Nat} {pieces : List α}

/-- Steps from a position to another one, each over a number of bytes, and what they give. Every step
goes on by at least a byte. -/
inductive Trail (step : Nat → Nat → α → Prop) : Nat → List α → Nat → Prop
  | stop (i : Nat) : Trail step i [] i
  | move {i n j : Nat} {piece : α} {pieces : List α} (hn : 0 < n) (h : step i n piece)
      (rest : Trail step (i + n) pieces j) : Trail step i (piece :: pieces) j

lemma Trail.le (h : Trail step i pieces j) : i ≤ j := by
  induction h with
  | stop => exact Nat.le_refl _
  | move hn h rest ih => omega

/-- What all steps are. -/
lemma Trail.imp (h : Trail step i pieces j)
    (himp : ∀ i n piece, i + n ≤ j → step i n piece → step' i n piece) : Trail step' i pieces j := by
  induction h with
  | stop i => exact .stop i
  | move hn h rest ih => exact .move hn (himp _ _ _ rest.le h) (ih himp)

end Trails

namespace Respeller

variable {m : Respeller}

/-- Every place before the end of a text is respelled, by at least a byte and not beyond the end. -/
def Progresses (m : Respeller) : Prop :=
  ∀ p : Place, p.ahead ≠ [] → ∃ step, m.next p = some step ∧ 0 < step.length ∧
    step.length ≤ p.ahead.length

/-- Respelling comes to the end of the text, and gives the pieces of its steps. -/
lemma Progresses.exists_trail (hm : m.Progresses) (done : Bytes) (p : Place) :
    ∃ pieces, Trail (fun i n piece => m.next (Place.ofPosition p.text i) = some ⟨n, piece⟩)
        p.position pieces p.text.length ∧
      m.respellFrom done p = some (done.reverse ++ pieces.flatten) := by
  fun_induction respellFrom m done p with
  | case1 done p hp =>
    have hend := p.position_add_length
    rw [hp, List.length_nil, Nat.add_zero] at hend
    exact ⟨[], hend ▸ .stop p.position, by simp⟩
  | case2 done p hp hnext =>
    obtain ⟨step, hstep, -⟩ := hm p hp
    rw [hnext] at hstep
    cases hstep
  | case3 done p hp step hnext hlength =>
    obtain ⟨step', hstep, hpos, -⟩ := hm p hp
    rw [hnext] at hstep
    cases hstep
    omega
  | case4 done p hp step hnext hlength ih =>
    obtain ⟨step', hstep, hpos, hle⟩ := hm p hp
    rw [hnext] at hstep
    cases hstep
    obtain ⟨pieces, htrail, heq⟩ := ih
    -- The trail from the next place is one of the same text, which a place keeps when it moves.
    rw [Place.text_advance, Place.position_advance hle] at htrail
    refine ⟨step.text :: pieces, .move hpos ?_ htrail, ?_⟩
    · rw [Place.ofPosition_position, hnext]
    · rw [heq]
      simp [List.reverseAux_eq]

/-- Respelling copies the text if it copies every byte. -/
lemma respellFrom_of_copies (hm : ∀ (p : Place) (b : UInt8) (rest : Bytes), p.ahead = b :: rest →
    m.next p = some ⟨1, [b]⟩) (done : Bytes) (p : Place) :
    m.respellFrom done p = some (done.reverse ++ p.ahead) := by
  fun_induction respellFrom m done p with
  | case1 done p hp => simp [hp]
  | case2 done p hp hnext =>
    obtain ⟨b, rest, hahead⟩ := List.exists_cons_of_ne_nil hp
    rw [hm p b rest hahead] at hnext
    cases hnext
  | case3 done p hp step hnext hlength =>
    obtain ⟨b, rest, hahead⟩ := List.exists_cons_of_ne_nil hp
    rw [hm p b rest hahead] at hnext
    cases hnext
    cases hlength
  | case4 done p hp step hnext hlength ih =>
    obtain ⟨b, rest, hahead⟩ := List.exists_cons_of_ne_nil hp
    rw [hm p b rest hahead] at hnext
    cases hnext
    rw [ih]
    simp [Place.advance, hahead]

variable {d : Definition} {db : Database}

/-- What is made of a text at a position: the replacement of the first of all rules that fits, or the
byte if there is none. -/
def Replaces (s : Setting) (rules : List Rule) (text : Bytes) (i n : Nat) (piece : Bytes) : Prop :=
  ∃ b result, text[i]? = some b ∧
    FirstFit s (none : Option (Lookahead Empty)) (Place.ofPosition text i) rules (.ok result) ∧
    outcome b result = ⟨n, piece⟩

lemma replaces_of_next (hrules : ∀ r ∈ d.spellingRules, Grouped r)
    (hdb : db.Groups db.spellingGroups d.spellingRules) {locale : String} {text piece : Bytes}
    {i n : Nat} (h : (ofDatabase db locale).next (Place.ofPosition text i) = some ⟨n, piece⟩) :
    Replaces (Setting.ofDatabase db locale) d.spellingRules text i n piece := by
  cases hahead : (Place.ofPosition text i).ahead with
  | nil =>
    rw [next, hahead] at h
    cases h
  | cons b rest =>
    obtain ⟨result, hfirst, -, hnext⟩ := exists_next_eq hrules hdb locale hahead
    rw [h] at hnext
    have hb : text[i]? = some b := by
      rw [← List.head?_drop]
      exact congrArg List.head? hahead
    exact ⟨b, result, hb, hfirst, (Option.some.inj hnext).symm⟩

lemma progresses (hrules : ∀ r ∈ d.spellingRules, Grouped r)
    (hdb : db.Groups db.spellingGroups d.spellingRules) (locale : String) :
    (ofDatabase db locale).Progresses := by
  intro p hp
  obtain ⟨b, rest, hahead⟩ := List.exists_cons_of_ne_nil hp
  obtain ⟨result, hfirst, -, hnext⟩ := exists_next_eq hrules hdb locale hahead
  refine ⟨_, hnext, ?_⟩
  cases result with
  | none =>
    have hpos := List.length_pos_iff.mpr hp
    exact ⟨Nat.one_pos, hpos⟩
  | some found => exact hfirst.length hrules

/-- Without groups of rules the text stays as it is, as it would if every place were tried. -/
lemma respell_eq (db : Database) (locale : String) (text : Bytes) :
    (ofDatabase db locale).respell text =
      (ofDatabase db locale).respellFrom [] (Place.start text) := by
  rw [respell]
  by_cases hrules : (ofDatabase db locale).hasRules = true
  · rw [if_pos hrules]
  have hnil : db.spellingGroups = [] := by simpa [ofDatabase] using hrules
  have hcopies : ∀ (p : Place) (b : UInt8) (rest : Bytes), p.ahead = b :: rest →
      (ofDatabase db locale).next p = some ⟨1, [b]⟩ := by
    intro p b rest hahead
    have hfound : (ofDatabase db locale).found p = none := by
      simp [found, ofDatabase, RuleTable.find, RuleTable.ofGroups, hahead, hnil, firstMatch]
    rw [next, hahead]
    dsimp only
    rw [hfound]
  rw [if_neg hrules, respellFrom_of_copies hcopies]
  rfl

/-- A text is respelled piece by piece. -/
lemma exists_trail_of_respell (hrules : ∀ r ∈ d.spellingRules, Grouped r)
    (hdb : db.Groups db.spellingGroups d.spellingRules) (locale : String) (text : Bytes) :
    ∃ pieces, Trail (Replaces (Setting.ofDatabase db locale) d.spellingRules text) 0 pieces
        text.length ∧
      (ofDatabase db locale).respell text = some pieces.flatten := by
  obtain ⟨pieces, htrail, heq⟩ :=
    (progresses hrules hdb locale).exists_trail [] (Place.start text)
  rw [Place.text_start] at htrail
  refine ⟨pieces, htrail.imp fun i n piece _ h => replaces_of_next hrules hdb h, ?_⟩
  rw [respell_eq, heq]
  rfl

end Respeller

namespace Pronouncer

variable {m : Pronouncer}

/-- A rule that is applied covers at least a byte, and nothing beyond the end of the text. -/
def Progresses (m : Pronouncer) : Prop :=
  ∀ (p : Place) (step : Pronounced), m.next p = .ok (some step) →
    0 < step.length ∧ step.length ≤ p.ahead.length

/-- A lookahead goes on by at least a byte, and not beyond the end of the text. -/
def ScanProgresses (m : Pronouncer) : Prop :=
  ∀ (p : Place) (found : Match), m.soundingMatch p = some found →
    0 < found.length ∧ found.length ≤ p.ahead.length

/-- If lookaheads go on, then only phonemes go wrong. -/
lemma ScanProgresses.exists_cause (hm : m.ScanProgresses) {e : MatchError} (h : m.Fails e) :
    ∃ cause, e = .invalidPhonemes cause := by
  refine h.resolve_right ?_
  rintro ⟨p, found, hfound, hlength, -⟩
  have hpos := (hm p found hfound).1
  omega

lemma next_ne_none {p : Place} (hp : p.ahead ≠ []) : m.next p ≠ .ok none := by
  rw [next, if_neg hp]
  intro h
  split at h
  · cases h
  · cases h
  · rename_i found hfind
    cases hparse : m.parse found.replacement with
    | error e =>
      rw [hparse] at h
      cases h
    | ok phonemes =>
      rw [hparse] at h
      cases h

/-- Pronouncing comes to the end of the text and gives the phonemes of its steps, or it stops where a
step goes wrong. -/
lemma Progresses.exists_trail (hm : m.Progresses) (done : List Phoneme) (p : Place) :
    ∃ i pieces, Trail (fun i n piece => m.next (Place.ofPosition p.text i) = .ok (some ⟨n, piece⟩))
        p.position pieces i ∧
      ((i = p.text.length ∧ m.pronounceFrom done p = .ok (done.reverse ++ pieces.flatten)) ∨
        i < p.text.length ∧ ∃ e, m.next (Place.ofPosition p.text i) = .error e ∧
          m.pronounceFrom done p = .error e) := by
  fun_induction pronounceFrom m done p with
  | case1 done p hp =>
    have hend := p.position_add_length
    rw [hp, List.length_nil, Nat.add_zero] at hend
    exact ⟨p.position, [], .stop p.position, .inl ⟨hend, by simp⟩⟩
  | case2 done p hp e hnext =>
    have hend := p.position_add_length
    have hpos := List.length_pos_iff.mpr hp
    refine ⟨p.position, [], .stop p.position, .inr ⟨by omega, e, ?_, rfl⟩⟩
    rw [Place.ofPosition_position, hnext]
  | case3 done p hp hnext => exact absurd hnext (next_ne_none hp)
  | case4 done p hp step hnext hlength =>
    have hpos := (hm p step hnext).1
    omega
  | case5 done p hp step hnext hlength ih =>
    obtain ⟨hpos, hle⟩ := hm p step hnext
    obtain ⟨i, pieces, htrail, hcases⟩ := ih
    rw [Place.text_advance, Place.position_advance hle] at htrail
    rw [Place.text_advance] at hcases
    refine ⟨i, step.phonemes :: pieces, .move hpos ?_ htrail,
      hcases.imp_left fun ⟨hi, heq⟩ => ⟨hi, ?_⟩⟩
    · rw [Place.ofPosition_position, hnext]
    · rw [heq]
      simp [List.reverseAux_eq]

variable {d : Definition} {db : Database} {locale : String}

/-- The first of all rules fits at a position, reads a number of bytes and is replaced with
phonemes. -/
def Sounds (m : Pronouncer) (rules : List Rule) (text : Bytes) (i n : Nat)
    (phonemes : List Phoneme) : Prop :=
  ∃ r, FirstFit m.setting (some m.lookahead) (Place.ofPosition text i) rules (.ok (some (r, n))) ∧
    m.parse r.replacement = .ok phonemes

lemma exists_of_outcome_eq_ok {position : Nat} {result : Except MatchError (Option (Rule × Nat))}
    {step : Pronounced} (h : m.outcome position result = .ok (some step)) :
    ∃ r, result = .ok (some (r, step.length)) ∧ m.parse r.replacement = .ok step.phonemes := by
  match result, h with
  | .ok (some (r, n)), h =>
    cases hparse : m.parse r.replacement with
    | error e =>
      rw [outcome, hparse] at h
      cases h
    | ok phonemes =>
      rw [outcome, hparse] at h
      cases h
      exact ⟨r, rfl, hparse⟩

/-- What a step applies is the first of all rules. -/
lemma exists_firstFit_of_next (hrules : ∀ r ∈ d.letterRules, Grouped r)
    (hdb : db.Groups db.letterGroups d.letterRules) (hm : ofDatabase db locale = .ok m) {p : Place}
    {step : Pronounced} (h : m.next p = .ok (some step)) :
    ∃ r, FirstFit m.setting (some m.lookahead) p d.letterRules (.ok (some (r, step.length))) ∧
      m.parse r.replacement = .ok step.phonemes := by
  have hp : p.ahead ≠ [] := by
    intro hp
    rw [next, if_pos hp] at h
    cases h
  obtain ⟨result, hfirst, hnext⟩ := exists_next_eq hrules hdb hm hp
  obtain ⟨r, rfl, hparse⟩ := exists_of_outcome_eq_ok (hnext.symm.trans h)
  exact ⟨r, hfirst, hparse⟩

lemma progresses (hrules : ∀ r ∈ d.letterRules, Grouped r)
    (hdb : db.Groups db.letterGroups d.letterRules) (hm : ofDatabase db locale = .ok m) :
    m.Progresses := by
  intro p step h
  obtain ⟨r, hfirst, -⟩ := exists_firstFit_of_next hrules hdb hm h
  exact hfirst.length hrules

lemma exists_mem_of_firstMatch {ε : Type} {s : Setting} {ask : Option (Lookahead ε)} {p : Place}
    {rules : List (Bytes × Bytes)} {found : Match}
    (h : firstMatch s ask p rules = .ok (some found)) :
    ∃ rule ∈ rules, fit s ask p rule.1 = .ok (some found.length) ∧ rule.2 = found.replacement := by
  fun_induction firstMatch s ask p rules with
  | case1 => cases h
  | case2 => cases h
  | case3 pattern replacement rules length hfit =>
    cases h
    exact ⟨_, List.mem_cons_self, hfit, rfl⟩
  | case4 pattern replacement rules hfit ih =>
    obtain ⟨rule, hrule, hfound⟩ := ih h
    exact ⟨rule, List.mem_cons_of_mem _ hrule, hfound⟩

/-- The rules that a lookahead tries ask nothing themselves. -/
lemma find_sounding_eq (hm : ofDatabase db locale = .ok m) {ε : Type} (ask : Option (Lookahead ε))
    (p : Place) : m.sounding.find m.setting ask p = .ok (m.soundingMatch p) := by
  obtain ⟨result, hresult⟩ : ∃ result, ∀ (ε : Type) (ask : Option (Lookahead ε)),
      m.sounding.find m.setting ask p = .ok result := by
    unfold RuleTable.find
    cases p.ahead with
    | nil => exact ⟨none, fun ε ask => rfl⟩
    | cons b rest =>
      refine exists_firstMatch_eq fun rule hrule => ?_
      rw [(ofDatabase_ok hm).2.2, ByteTable.get_ofFn] at hrule
      have hsounding := List.of_mem_filter hrule
      simp only [isSounding, Bool.and_eq_true, Bool.not_eq_true'] at hsounding
      exact hsounding.2
  have hsame : m.soundingMatch p = result := by
    unfold soundingMatch
    split
    rename_i hfind
    rw [hresult] at hfind
    exact (Except.ok.inj hfind).symm
  rw [hresult, hsame]

lemma scanProgresses (hrules : ∀ r ∈ d.letterRules, Grouped r)
    (hdb : db.Groups db.letterGroups d.letterRules) (hm : ofDatabase db locale = .ok m) :
    m.ScanProgresses := by
  intro p found h
  have hfind := find_sounding_eq hm (none : Option (Lookahead Empty)) p
  rw [h] at hfind
  unfold RuleTable.find at hfind
  split at hfind
  · cases hfind
  · rename_i b rest hahead
    obtain ⟨rule, hrule, hfit, -⟩ := exists_mem_of_firstMatch hfind
    rw [(ofDatabase_ok hm).2.2, ByteTable.get_ofFn, (ofDatabase_ok hm).2.1,
      get_ofGroups hdb] at hrule
    obtain ⟨r, hr, rfl⟩ := List.mem_map.mp (List.mem_of_mem_filter hrule)
    exact (hrules r (List.mem_of_mem_filter hr)).length_of_fit hfit

/-- A text is pronounced step by step, up to its end or up to where a step goes wrong. -/
lemma exists_trail_of_pronounce (hrules : ∀ r ∈ d.letterRules, Grouped r)
    (hdb : db.Groups db.letterGroups d.letterRules) (hm : ofDatabase db locale = .ok m)
    (text : Bytes) :
    ∃ i pieces, Trail (m.Sounds d.letterRules text) 0 pieces i ∧
      ((i = text.length ∧ m.pronounce text = .ok pieces.flatten) ∨
        (i < text.length ∧ m.pronounce text = .error (.unableToPronounce i) ∧
          ∀ r ∈ d.letterRules, fit m.setting (some m.lookahead) (Place.ofPosition text i)
            r.pattern = .ok none) ∨
        (i < text.length ∧ ∃ cause, m.pronounce text = .error (.invalidPhonemes cause) ∧
          m.next (Place.ofPosition text i) = .error (.invalidPhonemes cause))) := by
  obtain ⟨i, pieces, htrail, hend⟩ := (progresses hrules hdb hm).exists_trail [] (Place.start text)
  rw [Place.text_start] at htrail hend
  refine ⟨i, pieces, htrail.imp fun i n piece _ h => exists_firstFit_of_next hrules hdb hm h, ?_⟩
  rcases hend with hdone | ⟨hi, e, hnext, heq⟩
  · exact .inl hdone
  have hahead : (Place.ofPosition text i).ahead ≠ [] := by
    have hlength := Place.length_ahead_ofPosition text i
    rw [ne_eq, ← List.length_eq_zero_iff]
    omega
  obtain ⟨result, hfirst, houtcome⟩ := exists_next_eq hrules hdb hm hahead
  rw [Place.position_ofPosition hi.le, hnext] at houtcome
  rcases outcome_eq_error hfirst houtcome.symm with ⟨rfl, hnone⟩ | hfails
  · exact .inr (.inl ⟨hi, heq, hnone⟩)
  · obtain ⟨cause, rfl⟩ := (scanProgresses hrules hdb hm).exists_cause hfails
    exact .inr (.inr ⟨hi, cause, heq, hnext⟩)

end Pronouncer

section Compiled

variable {source : Bytes} {d : Definition} {data : Array UInt8} {db : Database}

/-- Both matchers go on with every step and never beyond the end of the text, and so do lookaheads,
which ask nothing themselves. Respelling ends at the end of the text and gives the pieces of its steps,
and so does pronouncing, unless it comes to a position where no rule fits or where phonemes cannot be
read. -/
theorem covers_of_compile (hzero : 0 ∉ source) (hparse : Language.parse source = .ok d)
    (hcompile : Language.compile source = .ok data) (hload : Database.load data = .ok db)
    (locale : String) :
    ((Respeller.ofDatabase db locale).Progresses ∧
      ∀ text, ∃ pieces,
        Trail (Respeller.Replaces (Setting.ofDatabase db locale) d.spellingRules text) 0 pieces
          text.length ∧
        (Respeller.ofDatabase db locale).respell text = some pieces.flatten ∧
        (Respeller.ofDatabase db locale).respellFrom [] (Place.start text) =
          (Respeller.ofDatabase db locale).respell text) ∧
    ∀ m, Pronouncer.ofDatabase db locale = .ok m →
      m.Progresses ∧ m.ScanProgresses ∧
      (∀ p e, m.firstPhoneme p = .error e → ∃ cause, e = .invalidPhonemes cause) ∧
      (∀ (ε : Type) (ask : Option (Lookahead ε)) (p : Place),
        m.sounding.find m.setting ask p = .ok (m.soundingMatch p)) ∧
      ∀ text, ∃ i pieces, Trail (m.Sounds d.letterRules text) 0 pieces i ∧
        ((i = text.length ∧ m.pronounce text = .ok pieces.flatten) ∨
          (i < text.length ∧ m.pronounce text = .error (.unableToPronounce i) ∧
            ∀ r ∈ d.letterRules, fit m.setting (some m.lookahead) (Place.ofPosition text i)
              r.pattern = .ok none) ∨
          (i < text.length ∧ ∃ cause, m.pronounce text = .error (.invalidPhonemes cause) ∧
            m.next (Place.ofPosition text i) = .error (.invalidPhonemes cause))) := by
  have hdb := Definition.represents_of_compile hzero hparse hcompile hload
  have hspelling := grouped_of_parse hparse .spelling
  have hletter := grouped_of_parse hparse .letter
  constructor
  · refine ⟨Respeller.progresses hspelling hdb.spellingGroups locale, fun text => ?_⟩
    obtain ⟨pieces, htrail, heq⟩ :=
      Respeller.exists_trail_of_respell hspelling hdb.spellingGroups locale text
    exact ⟨pieces, htrail, heq, (Respeller.respell_eq db locale text).symm⟩
  · intro m hm
    have hscan := Pronouncer.scanProgresses hletter hdb.letterGroups hm
    exact ⟨Pronouncer.progresses hletter hdb.letterGroups hm, hscan,
      fun p e h => hscan.exists_cause (fails_of_firstPhoneme h),
      fun ε ask p => Pronouncer.find_sounding_eq hm ask p,
      Pronouncer.exists_trail_of_pronounce hletter hdb.letterGroups hm⟩

/-- The text `ay` respelled with the sample. -/
theorem covers_of_compile_sample : ∃ data db m, Language.compile sampleSource = .ok data ∧
    Database.load data = .ok db ∧ Pronouncer.ofDatabase db "en" = .ok m ∧ m.Progresses ∧
    ∃ pieces, Trail (Respeller.Replaces (Setting.ofDatabase db "en")
        sampleDefinition.spellingRules [0x61, 0x79]) 0 pieces 2 ∧
      (Respeller.ofDatabase db "en").respell [0x61, 0x79] = some pieces.flatten := by
  obtain ⟨data, db, m, hcompile, hload, hm⟩ := exists_pronouncer_of_sampleSource
  have hall := covers_of_compile (by decide +kernel) parse_sampleSource hcompile hload "en"
  obtain ⟨pieces, htrail, heq, -⟩ := hall.1.2 [0x61, 0x79]
  exact ⟨data, db, m, hcompile, hload, hm, (hall.2 m hm).1, pieces, htrail, heq⟩

end Compiled

end Matching

end LetterToSound
