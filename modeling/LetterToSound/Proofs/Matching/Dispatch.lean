import Mathlib
import LetterToSound.Matching.Pronouncer
import LetterToSound.Matching.Respeller
import LetterToSound.Proofs.Language.Compiled
import LetterToSound.Proofs.Matching.Meaning
import LetterToSound.Proofs.Pattern.Lookaheads

/-!
# The rule that is applied

A matcher only tries the rules of one group at a place, the group that the next byte names. That is
the same as trying all rules in the order of the source: the anchor of every rule starts with the byte
of its group, behind the guard if there is one, so a rule of another group does not fit.
-/

namespace LetterToSound.Matching

open LetterToSound.Language

section FirstFit

variable {ε : Type} {s : Setting} {ask : Option (Lookahead ε)} {p : Place}

/-- The first rule of a list that fits at a place and how much it replaces, or what went wrong before
any rule has fit. -/
def FirstFit (s : Setting) (ask : Option (Lookahead ε)) (p : Place) (rules : List Rule) :
    Except ε (Option (Rule × Nat)) → Prop
  | .ok none => ∀ r ∈ rules, fit s ask p r.pattern = .ok none
  | .ok (some (r, n)) => ∃ before after, rules = before ++ r :: after ∧
      (∀ q ∈ before, fit s ask p q.pattern = .ok none) ∧ fit s ask p r.pattern = .ok (some n)
  | .error e => ∃ before r after, rules = before ++ r :: after ∧
      (∀ q ∈ before, fit s ask p q.pattern = .ok none) ∧ fit s ask p r.pattern = .error e

lemma FirstFit.cons {r : Rule} {rules : List Rule} {result : Except ε (Option (Rule × Nat))}
    (hr : fit s ask p r.pattern = .ok none) (h : FirstFit s ask p rules result) :
    FirstFit s ask p (r :: rules) result := by
  match result, h with
  | .ok none, h => exact List.forall_mem_cons.mpr ⟨hr, h⟩
  | .ok (some (q, n)), ⟨before, after, hrules, hbefore, hq⟩ =>
    exact ⟨r :: before, after, by rw [hrules]; rfl, List.forall_mem_cons.mpr ⟨hr, hbefore⟩, hq⟩
  | .error e, ⟨before, q, after, hrules, hbefore, hq⟩ =>
    exact ⟨r :: before, q, after, by rw [hrules]; rfl, List.forall_mem_cons.mpr ⟨hr, hbefore⟩, hq⟩

/-- Nothing is found where no rule fits. -/
lemma FirstFit.eq_none {rules : List Rule} {result : Except ε (Option (Rule × Nat))}
    (h : FirstFit s ask p rules result) (hnone : ∀ r ∈ rules, fit s ask p r.pattern = .ok none) :
    result = .ok none := by
  match result, h with
  | .ok none, _ => rfl
  | .ok (some (r, n)), ⟨before, after, hrules, _, hr⟩ =>
    rw [hnone r (by simp [hrules])] at hr
    cases hr
  | .error e, ⟨before, r, after, hrules, _, hr⟩ =>
    rw [hnone r (by simp [hrules])] at hr
    cases hr

/-- A rule that has been found, as matchers apply it. -/
def applied : Rule × Nat → Match
  | (r, n) => ⟨n, r.replacement⟩

/-- Going through a list of rules finds the first one that fits. -/
lemma exists_firstFit (s : Setting) (ask : Option (Lookahead ε)) (p : Place) (rules : List Rule) :
    ∃ result, FirstFit s ask p rules result ∧
      firstMatch s ask p (rules.map Rule.stored) = result.map (Option.map applied) := by
  induction rules with
  | nil => exact ⟨.ok none, by simp [FirstFit], rfl⟩
  | cons r rules ih =>
    rw [List.map_cons, Rule.stored, firstMatch]
    cases h : fit s ask p r.pattern with
    | error e => exact ⟨.error e, ⟨[], r, rules, rfl, by simp, h⟩, rfl⟩
    | ok result =>
      cases result with
      | some n => exact ⟨.ok (some (r, n)), ⟨[], rules, rfl, by simp, h⟩, rfl⟩
      | none =>
        obtain ⟨result, hfirst, heq⟩ := ih
        exact ⟨result, hfirst.cons h, heq⟩

/-- Rules that do not fit may be left out. -/
lemma firstMatch_filter {keep : Rule → Bool} {rules : List Rule}
    (h : ∀ r ∈ rules, keep r = false → fit s ask p r.pattern = .ok none) :
    firstMatch s ask p ((rules.filter keep).map Rule.stored) =
      firstMatch s ask p (rules.map Rule.stored) := by
  induction rules with
  | nil => rfl
  | cons r rules ih =>
    obtain ⟨hr, hrules⟩ := List.forall_mem_cons.mp h
    cases hkeep : keep r with
    | false =>
      rw [List.filter_cons_of_neg (by simp [hkeep]), ih hrules, List.map_cons, Rule.stored,
        firstMatch, hr hkeep]
    | true =>
      rw [List.filter_cons_of_pos hkeep, List.map_cons, List.map_cons, Rule.stored, firstMatch,
        firstMatch, ih hrules]

end FirstFit

section Groups

variable {ε : Type} {s : Setting} {ask : Option (Lookahead ε)} {p : Place}

/-- A rule whose anchor starts with the byte of its group. -/
def Grouped (r : Rule) : Prop :=
  ∃ source guard lookahead, StoredPattern.ofSource source guard lookahead = .ok ⟨r.group, r.pattern⟩

lemma isLiteral_of_startsAnchor {b : UInt8} (h : SourcePattern.startsAnchor b = true) :
    Pattern.isLiteral b = true := by
  simp only [SourcePattern.startsAnchor, Bool.and_eq_true, decide_eq_true_eq, List.mem_cons,
    not_or] at h
  simp only [Pattern.isLiteral, Bool.and_eq_true, decide_eq_true_eq, List.mem_cons, not_or]
  exact ⟨h.1, h.2.2.2⟩

/-- A rule is tried by reading the byte of its group, once its guard is met. -/
lemma Grouped.exists_fit_eq {r : Rule} (hr : Grouped r) (s : Setting) :
    ∃ (meets : Bool) (rest : Bytes), ∀ (ε : Type) (ask : Option (Lookahead ε)) (p : Place),
      fit s ask p r.pattern =
        if meets = true ∧ p.ahead.head? = some r.group then
          readPattern s ask p ⟨.anchor, 1, p.ahead.tail, p.ahead, p.behind⟩ rest
        else .ok none := by
  obtain ⟨source, guard, lookahead, hstored⟩ := hr
  obtain ⟨-, hbytes, hstarts, rest, hanchor⟩ := StoredPattern.ofSource_ok hstored
  dsimp only at hbytes hstarts hanchor
  obtain ⟨hadmits, hbody⟩ := admits_encode s guard hstarts hanchor
  have hliteral := isLiteral_of_startsAnchor hstarts
  -- The literal stands behind the guard and in front of everything that could ask.
  refine ⟨s.meets guard, rest ++ StoredPattern.contextBytes (SourcePattern.split source).left
    (SourcePattern.split source).right, fun ε ask p => ?_⟩
  rw [fit, hbytes, hadmits, hbody, hanchor, List.cons_append,
    readPattern_byte (Pattern.Item.isLiteral_ne hliteral), members_literal hliteral, Cursors.start,
    Cursors.read]
  dsimp only
  rw [firstMember_literal]
  by_cases hmeets : s.meets guard = true
  · by_cases hhead : p.ahead.head? = some r.group
    · simp [hmeets, hhead]
    · simp [hmeets, hhead]
  · simp [hmeets]

/-- A rule of another group than the one that the next byte names does not fit. -/
lemma Grouped.fit_eq_none {r : Rule} (hr : Grouped r) (hp : p.ahead.head? ≠ some r.group) :
    fit s ask p r.pattern = .ok none := by
  obtain ⟨meets, rest, hfit⟩ := hr.exists_fit_eq s
  rw [hfit, if_neg fun h => hp h.2]

/-- A table holds what its groups hold of the rules of each byte, and nothing for other bytes. -/
lemma get_ofGroups_of_ids {db : Database} {tables : List NamedTable} {rules : List Rule}
    (kept : List (Bytes × Bytes) → List (Bytes × Bytes)) (hnil : kept [] = [])
    (hids : ∀ group, group ∈ tables.map NamedTable.id ↔ group ∈ rules.map Rule.group)
    (hrules : ∀ t ∈ tables, db.rules t = kept ((rules.filter (·.group = t.id)).map Rule.stored))
    (b : UInt8) :
    (RuleTable.ofGroups db tables).get b = kept ((rules.filter (·.group = b)).map Rule.stored) := by
  rw [RuleTable.ofGroups, ByteTable.get_ofFn]
  cases hfind : tables.find? (·.id = b) with
  | some t =>
    have hid : t.id = b := by simpa using List.find?_some hfind
    rw [← hid]
    exact hrules t (List.mem_of_find?_eq_some hfind)
  | none =>
    have hnot : b ∉ rules.map Rule.group := by
      rw [← hids, List.mem_map]
      rintro ⟨t, ht, rfl⟩
      simpa using List.find?_eq_none.mp hfind t ht
    have hempty : rules.filter (·.group = b) = [] := by
      rw [List.filter_eq_nil_iff]
      intro r hr hb
      exact hnot (List.mem_map.mpr ⟨r, hr, of_decide_eq_true hb⟩)
    rw [hempty, List.map_nil, hnil]

/-- A table holds the rules of a group in their order. -/
lemma get_ofGroups {db : Database} {tables : List NamedTable} {rules : List Rule}
    (htables : db.Groups tables rules) (b : UInt8) :
    (RuleTable.ofGroups db tables).get b = (rules.filter (·.group = b)).map Rule.stored :=
  get_ofGroups_of_ids id rfl htables.ids htables.rules b

lemma find_of_ahead (rules : RuleTable) (s : Setting) (ask : Option (Lookahead ε)) {b : UInt8}
    {rest : Bytes} (hp : p.ahead = b :: rest) :
    rules.find s ask p = firstMatch s ask p (rules.get b) := by
  rw [RuleTable.find, hp]

/-- Trying the rules of the group that the next byte names is trying all rules in their order. -/
lemma find_ofGroups {db : Database} {tables : List NamedTable} {rules : List Rule} {b : UInt8}
    {rest : Bytes} (htables : db.Groups tables rules) (hrules : ∀ r ∈ rules, Grouped r)
    (hp : p.ahead = b :: rest) :
    (RuleTable.ofGroups db tables).find s ask p = firstMatch s ask p (rules.map Rule.stored) := by
  rw [find_of_ahead _ _ _ hp, get_ofGroups htables]
  refine firstMatch_filter fun r hr hkeep => (hrules r hr).fit_eq_none ?_
  rw [hp, List.head?_cons, ne_eq, Option.some.injEq]
  exact fun hb => of_decide_eq_false hkeep hb.symm

end Groups

section Errors

open Pattern (openLookahead)

variable {ε : Type} {s : Setting} {ask : Lookahead ε} {p : Place} {e : ε}

lemma phase_of_read {c c' : Cursors} {members : List Bytes} (h : c.read members = some c') :
    c'.phase = c.phase := by
  unfold Cursors.read at h
  split at h
  all_goals
    obtain ⟨found, -, rfl⟩ := Option.map_eq_some_iff.mp h
    rfl

/-- Only a list in a right context is asked about. -/
lemma exists_list_of_answer? {c : Cursors} {b : UInt8} {rest tail : Bytes} {answer : Except ε Bool}
    (h : answer? (some ask) c b rest = some (answer, tail)) : c.phase = .right ∧
      b = openLookahead ∧ ∃ list, Explicit.splitGroup? rest = some (list, tail) ∧
        ask c.right list = answer := by
  unfold answer? at h
  split at h
  · rename_i hask hphase
    cases hask
    split at h
    · rename_i hopen
      obtain ⟨⟨list, behind⟩, hsplit, hanswer⟩ := Option.map_eq_some_iff.mp h
      cases hanswer
      exact ⟨hphase, hopen, list, hsplit, rfl⟩
    · cases h
  · cases h

/-- What a right context does not ask about is no list. -/
lemma splitGroup?_of_answer?_eq_none {c : Cursors} {b : UInt8} {rest : Bytes}
    (h : answer? (some ask) c b rest = none) (hphase : c.phase = .right) (hb : b = openLookahead) :
    Explicit.splitGroup? rest = none := by
  unfold answer? at h
  rw [hphase] at h
  dsimp only at h
  rw [if_pos hb] at h
  exact Option.map_eq_none_iff.mp h

/-- What goes wrong with a pattern has gone wrong with a list that it asks for. -/
lemma exists_ask_of_readPattern_error {c : Cursors} {pattern : Bytes}
    (h : readPattern s (some ask) p c pattern = .error e) :
    ∃ ahead, ∃ list ∈ StoredPattern.lookaheads (c.phase == .right) pattern,
      ask ahead list = .error e := by
  fun_induction readPattern s (some ask) p c pattern with
  | case1 => cases h
  | case2 c rest ih =>
    rw [StoredPattern.lookaheads_rightMark]
    exact ih h
  | case3 c rest hne ih =>
    rw [StoredPattern.lookaheads_leftMark]
    exact ih h
  | case4 c rest hboundary hright hleft ih =>
    rw [StoredPattern.lookaheads_pass hright hleft fun _ heq => absurd heq (by decide)]
    exact ih h
  | case5 => cases h
  | case6 c b rest hright hleft hboundary e' tail hanswer =>
    cases h
    obtain ⟨hphase, rfl, list, hsplit, hask⟩ := exists_list_of_answer? hanswer
    rw [hphase, beq_self_eq_true, StoredPattern.lookaheads_list hsplit]
    exact ⟨_, list, List.mem_cons_self, hask⟩
  | case7 c b rest hright hleft hboundary tail hanswer ih =>
    obtain ⟨hphase, rfl, list, hsplit, -⟩ := exists_list_of_answer? hanswer
    obtain ⟨ahead, list', hmem, hask⟩ := ih h
    rw [hphase, beq_self_eq_true] at hmem ⊢
    rw [StoredPattern.lookaheads_list hsplit]
    exact ⟨ahead, list', List.mem_cons_of_mem _ hmem, hask⟩
  | case8 => cases h
  | case9 c b rest hright hleft hboundary hanswer c' hread ih =>
    rw [StoredPattern.lookaheads_pass hright hleft fun hinside =>
      splitGroup?_of_answer?_eq_none hanswer (by simpa using hinside)]
    rw [phase_of_read hread] at ih
    exact ih h
  | case10 => cases h

lemma exists_ask_of_fit_error {pattern : Bytes} (h : fit s (some ask) p pattern = .error e) :
    ∃ ahead, ∃ list ∈ StoredPattern.asked pattern, ask ahead list = .error e := by
  unfold fit at h
  split at h
  · exact exists_ask_of_readPattern_error h
  · cases h

end Errors

section Faults

variable {m : Pronouncer} {e : MatchError} {p : Place}

/-- What may go wrong while a rule is tried or applied: phonemes that cannot be read, or a lookahead
with a rule that covers no text. -/
def Pronouncer.Fails (m : Pronouncer) (e : MatchError) : Prop :=
  (∃ cause, e = .invalidPhonemes cause) ∨
    ∃ p found, m.soundingMatch p = some found ∧ found.length = 0 ∧ e = .stalled p.position

lemma exists_cause_of_parse {replacement : Bytes} (h : m.parse replacement = .error e) :
    ∃ cause, e = .invalidPhonemes cause := by
  unfold Pronouncer.parse at h
  split at h
  · cases h
  · cases h
    exact ⟨_, rfl⟩

lemma fails_of_parse {replacement : Bytes} (h : m.parse replacement = .error e) : m.Fails e :=
  .inl (exists_cause_of_parse h)

lemma fails_of_firstPhoneme (h : m.firstPhoneme p = .error e) : m.Fails e := by
  fun_induction Pronouncer.firstPhoneme m p with
  | case1 => cases h
  | case2 => cases h
  | case3 p hp found hfound e' hparse =>
    cases h
    exact fails_of_parse hparse
  | case4 => cases h
  | case5 p hp found hfound hparse hlength =>
    cases h
    exact .inr ⟨p, found, hfound, hlength, rfl⟩
  | case6 p hp found hfound hparse hlength ih => exact ih h

lemma fails_of_lookahead {ahead list : Bytes} (h : m.lookahead ahead list = .error e) :
    m.Fails e := by
  unfold Pronouncer.lookahead at h
  split at h
  · cases h
    exact .inl ⟨_, rfl⟩
  · cases hfirst : m.firstPhoneme (Place.start ahead) with
    | error e' =>
      rw [hfirst] at h
      cases h
      exact fails_of_firstPhoneme hfirst
    | ok first =>
      rw [hfirst] at h
      cases h

lemma fails_of_fit {pattern : Bytes} (h : fit m.setting (some m.lookahead) p pattern = .error e) :
    m.Fails e := by
  obtain ⟨ahead, list, -, hask⟩ := exists_ask_of_fit_error h
  exact fails_of_lookahead hask

/-- Text that no rule covers only ends a lookahead. -/
lemma not_fails_unableToPronounce (m : Pronouncer) (position : Nat) :
    ¬m.Fails (.unableToPronounce position) := by
  rintro (⟨cause, h⟩ | ⟨p, found, -, -, h⟩)
  · cases h
  · cases h

end Faults

namespace Respeller

/-- What is made of the byte at a place, by a rule or without one. -/
def outcome (b : UInt8) : Option (Rule × Nat) → Respelled
  | none => ⟨1, [b]⟩
  | some (r, n) => ⟨n, r.replacement⟩

variable {d : Definition} {db : Database} {p : Place} {b : UInt8} {rest : Bytes}

/-- Respelling applies the first of all rules that fits, and copies the byte if there is none. -/
lemma exists_next_eq (hrules : ∀ r ∈ d.spellingRules, Grouped r)
    (hdb : db.Groups db.spellingGroups d.spellingRules) (locale : String) (hp : p.ahead = b :: rest) :
    ∃ result, FirstFit (Setting.ofDatabase db locale) (none : Option (Lookahead Empty)) p
        d.spellingRules (.ok result) ∧
      (ofDatabase db locale).found p = result.map applied ∧
      (ofDatabase db locale).next p = some (outcome b result) := by
  obtain ⟨result, hfirst, heq⟩ := exists_firstFit (Setting.ofDatabase db locale)
    (none : Option (Lookahead Empty)) p d.spellingRules
  rw [← find_ofGroups hdb hrules hp] at heq
  match result, hfirst with
  | .ok result, hfirst =>
    have hfound : (ofDatabase db locale).found p = result.map applied := by
      unfold found
      split
      rename_i hfind
      exact (Except.ok.inj (heq.symm.trans hfind)).symm
    refine ⟨result, hfirst, hfound, ?_⟩
    rw [next, hp]
    dsimp only
    rw [hfound]
    cases result <;> rfl

end Respeller

namespace Pronouncer

variable {m : Pronouncer} {d : Definition} {db : Database} {locale : String} {p : Place}

/-- What comes of having looked for a rule at a position. -/
def outcome (m : Pronouncer) (position : Nat) :
    Except MatchError (Option (Rule × Nat)) → Except MatchError (Option Pronounced)
  | .error e => .error e
  | .ok none => .error (.unableToPronounce position)
  | .ok (some (r, n)) => (m.parse r.replacement).map fun phonemes => some ⟨n, phonemes⟩

lemma ofDatabase_ok (h : ofDatabase db locale = .ok m) :
    m.setting = Setting.ofDatabase db locale ∧ m.rules = RuleTable.ofGroups db db.letterGroups ∧
      m.sounding = .ofFn fun b => (m.rules.get b).filter isSounding := by
  unfold ofDatabase at h
  split at h
  · cases h
  · cases h
    exact ⟨rfl, rfl, rfl⟩

/-- Pronouncing applies the first of all rules that fits. -/
lemma exists_next_eq (hrules : ∀ r ∈ d.letterRules, Grouped r)
    (hdb : db.Groups db.letterGroups d.letterRules) (hm : ofDatabase db locale = .ok m)
    (hp : p.ahead ≠ []) :
    ∃ result, FirstFit m.setting (some m.lookahead) p d.letterRules result ∧
      m.next p = m.outcome p.position result := by
  obtain ⟨b, rest, hahead⟩ := List.exists_cons_of_ne_nil hp
  obtain ⟨result, hfirst, heq⟩ := exists_firstFit m.setting (some m.lookahead) p d.letterRules
  rw [← find_ofGroups hdb hrules hahead, ← (ofDatabase_ok hm).2.1] at heq
  refine ⟨result, hfirst, ?_⟩
  rw [next, if_neg hp, heq]
  match result with
  | .error e => rfl
  | .ok none => rfl
  | .ok (some (r, n)) => rfl

/-- What goes wrong where a rule has been looked for: there is none, or it has failed. -/
lemma outcome_eq_error {rules : List Rule} {position : Nat} {e : MatchError}
    {result : Except MatchError (Option (Rule × Nat))}
    (hfirst : FirstFit m.setting (some m.lookahead) p rules result)
    (h : m.outcome position result = .error e) :
    (e = .unableToPronounce position ∧
      ∀ r ∈ rules, fit m.setting (some m.lookahead) p r.pattern = .ok none) ∨ m.Fails e := by
  match result, hfirst with
  | .ok none, hnone =>
    cases h
    exact .inl ⟨rfl, hnone⟩
  | .ok (some (r, n)), _ =>
    cases hparse : m.parse r.replacement with
    | error e' =>
      rw [outcome, hparse] at h
      cases h
      exact .inr (fails_of_parse hparse)
    | ok phonemes =>
      rw [outcome, hparse] at h
      cases h
  | .error e', ⟨before, r, after, _, _, hr⟩ =>
    cases h
    exact .inr (fails_of_fit hr)

/-- The text cannot be pronounced at a place exactly if none of the rules fits there. -/
lemma outcome_eq_unableToPronounce {rules : List Rule} {position : Nat}
    {result : Except MatchError (Option (Rule × Nat))}
    (hfirst : FirstFit m.setting (some m.lookahead) p rules result) :
    m.outcome position result = .error (.unableToPronounce position) ↔
      ∀ r ∈ rules, fit m.setting (some m.lookahead) p r.pattern = .ok none := by
  constructor
  · intro h
    rcases outcome_eq_error hfirst h with ⟨-, hnone⟩ | hfails
    · exact hnone
    · exact absurd hfails (not_fails_unableToPronounce m position)
  · intro hnone
    rw [hfirst.eq_none hnone]
    rfl

end Pronouncer

section Compiled

variable {source : Bytes} {d : Definition} {data : Array UInt8} {db : Database}

/-- The rules of an accepted source are in the groups of their first bytes. -/
lemma grouped_of_parse (h : Language.parse source = .ok d) (kind : RuleKind) :
    ∀ r ∈ d.kindRules kind, Grouped r := by
  intro r hr
  obtain ⟨scope, -, hmade⟩ := Definition.exists_made_of_parse h kind r hr
  obtain ⟨text, -, guard, -, hstored⟩ := hmade.pattern
  exact ⟨text, guard, _, hstored⟩

/-- At every position of a text the rule that is applied is the first of all rules of the source that
fits there: respelling copies the byte if there is none, and pronouncing says that it is unable to go
on. -/
theorem firstFit_of_compile (hzero : 0 ∉ source) (hparse : Language.parse source = .ok d)
    (hcompile : Language.compile source = .ok data) (hload : Database.load data = .ok db)
    (locale : String) (text : Bytes) {position : Nat} (hposition : position < text.length) :
    (∃ result, FirstFit (Setting.ofDatabase db locale) (none : Option (Lookahead Empty))
        (Place.ofPosition text position) d.spellingRules (.ok result) ∧
      (Respeller.ofDatabase db locale).found (Place.ofPosition text position) =
        result.map applied ∧
      (Respeller.ofDatabase db locale).next (Place.ofPosition text position) =
        some (Respeller.outcome text[position] result)) ∧
    ∀ m, Pronouncer.ofDatabase db locale = .ok m →
      m.setting = Setting.ofDatabase db locale ∧
      (∃ result, FirstFit m.setting (some m.lookahead) (Place.ofPosition text position)
          d.letterRules result ∧
        m.next (Place.ofPosition text position) = m.outcome position result) ∧
      (m.next (Place.ofPosition text position) = .error (.unableToPronounce position) ↔
        ∀ r ∈ d.letterRules, fit m.setting (some m.lookahead) (Place.ofPosition text position)
          r.pattern = .ok none) := by
  have hdb := Definition.represents_of_compile hzero hparse hcompile hload
  have hahead : (Place.ofPosition text position).ahead =
      text[position] :: text.drop (position + 1) := List.drop_eq_getElem_cons hposition
  have hbehind : (Place.ofPosition text position).position = position := by
    simp [Place.ofPosition, Place.position, hposition.le]
  refine ⟨Respeller.exists_next_eq (grouped_of_parse hparse .spelling) hdb.spellingGroups locale
    hahead, fun m hm => ?_⟩
  have hne : (Place.ofPosition text position).ahead ≠ [] := by
    rw [hahead]
    exact List.cons_ne_nil _ _
  obtain ⟨result, hfirst, hnext⟩ := Pronouncer.exists_next_eq (grouped_of_parse hparse .letter)
    hdb.letterGroups hm hne
  rw [hbehind] at hnext
  refine ⟨(Pronouncer.ofDatabase_ok hm).1, ⟨result, hfirst, hnext⟩, ?_⟩
  rw [hnext]
  exact Pronouncer.outcome_eq_unableToPronounce hfirst

/-- The sample can be pronounced with. -/
lemma exists_pronouncer_of_sampleSource : ∃ data db m, Language.compile sampleSource = .ok data ∧
    Database.load data = .ok db ∧ Pronouncer.ofDatabase db "en" = .ok m := by
  obtain ⟨data, db, hcompile, hload, halphabet⟩ := exists_load_of_sampleSource
  obtain ⟨m, hm⟩ : ∃ m, Pronouncer.ofDatabase db "en" = .ok m := by
    rw [Pronouncer.ofDatabase, halphabet]
    exact ⟨_, rfl⟩
  exact ⟨data, db, m, hcompile, hload, hm⟩

/-- No letter rule of the sample reads a `q`, so it cannot be pronounced. -/
theorem firstFit_of_compile_sample : ∃ data db m, Language.compile sampleSource = .ok data ∧
    Database.load data = .ok db ∧ Pronouncer.ofDatabase db "en" = .ok m ∧
    m.next (Place.ofPosition [0x61, 0x71] 1) = .error (.unableToPronounce 1) := by
  obtain ⟨data, db, m, hcompile, hload, hm⟩ := exists_pronouncer_of_sampleSource
  have hall := firstFit_of_compile (by decide +kernel) parse_sampleSource hcompile hload "en"
    [0x61, 0x71] (show 1 < _ by decide)
  have hgroup : ∀ r ∈ sampleDefinition.letterRules,
      (Place.ofPosition [0x61, 0x71] 1).ahead.head? ≠ some r.group := by decide +kernel
  refine ⟨data, db, m, hcompile, hload, hm, (hall.2 m hm).2.2.mpr fun r hr => ?_⟩
  exact (grouped_of_parse parse_sampleSource .letter r hr).fit_eq_none (hgroup r hr)

end Compiled

end LetterToSound.Matching
