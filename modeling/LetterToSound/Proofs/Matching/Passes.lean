import Mathlib
import LetterToSound.Proofs.Matching.Positions
import LetterToSound.Proofs.Matching.Sounding

/-!
# Passes over a text

Pronouncing is spelled out here with positions and windows: a pass tries the rules of a group one after
the other, a lookahead is a pass over the window from where it asks to the end, and such a pass may ask
again. A limit on how deep lookaheads may stand in one another tells what happens. Rules without a right
context never ask, and these are the only ones that a lookahead tries; so a limit of one is enough, and
what a lookahead answers depends on the text of its window alone.
-/

namespace LetterToSound.Matching

open LetterToSound.Language Pattern

/-- Why a pass gives no result. -/
inductive Halt where
  /-- A position is outside of the bytes that are looked at. -/
  | outOfRange
  /-- More lookaheads stand in one another than are allowed. -/
  | tooDeep
  /-- A lookahead goes on at the same position for ever. -/
  | endless
  | failed (e : MatchError)
deriving DecidableEq, Repr

namespace Halt

def ofFault : Fault Halt → Halt
  | .outOfRange => .outOfRange
  | .failed halt => halt

/-- What an error is to a pass, which does not notice that a rule covers no text. -/
def ofError : MatchError → Halt
  | .stalled _ => .endless
  | e => .failed e

end Halt

section Rules

/-- Whether a pass leaves a rule out. All rules are tried where replacements may be elided. -/
def leavesOut (elide : Bool) (rule : Bytes × Bytes) : Bool :=
  !elide && (rule.2.isEmpty || StoredPattern.hasRightContext rule.1)

/-- The first rule that fits of those that are not left out: where its anchor ends, and its
replacement. -/
def tryRules (s : Setting) (hook : Hook Halt) (elide : Bool) (w : Window) (position : Nat) :
    List (Bytes × Bytes) → Except Halt (Option (Nat × Bytes))
  | [] => .ok none
  | rule :: rules =>
    if leavesOut elide rule then tryRules s hook elide w position rules
    else
      match fitAt s hook w position rule.1 with
      | .error fault => .error (.ofFault fault)
      | .ok (some stop) => .ok (some (stop, rule.2))
      | .ok none => tryRules s hook elide w position rules

end Rules

namespace Pronouncer

variable (m : Pronouncer) (hook : Window → Hook Halt)

/-- What a pass makes of the rule that it has found at a position: where it goes on, and phonemes. -/
def matched (position : Nat) : Option (Nat × Bytes) → Except Halt (Option (Nat × List Phoneme))
  | none => .error (.failed (.unableToPronounce position))
  | some (next, replacement) =>
    ((m.parse replacement).mapError .failed).map fun phonemes => some (next, phonemes)

/-- Applies a rule at a position of a window; none at its end. -/
def matchAt (elide : Bool) (w : Window) (position : Nat) :
    Except Halt (Option (Nat × List Phoneme)) :=
  if w.stop ≤ position then .ok none
  else do
    let b ← (byteAt w.text position).mapError .ofFault
    let found ← tryRules m.setting (hook w) elide w position (m.rules.get b)
    m.matched position found

/-- The first phoneme that a window sounds like from a position on. -/
def firstAt (w : Window) (position : Nat) : Except Halt (Option Phoneme) :=
  match _h : m.matchAt hook false w position with
  | .error (.failed (.unableToPronounce _)) => .ok none
  | .error e => .error e
  | .ok none => .ok none
  | .ok (some (_, first :: _)) => .ok (some first)
  | .ok (some (next, [])) =>
    if _hnext : next ≤ position then .error .endless else firstAt w next
termination_by w.stop - position
decreasing_by
  have hlt : position < w.stop := by
    by_contra hle
    rw [matchAt, if_pos (Nat.le_of_not_lt hle)] at _h
    cases _h
  omega

/-- Answers lookaheads by passes over the window from where they ask, a number of them in one
another. -/
def lookaheadAt : Nat → Window → Hook Halt
  | 0, _, _, _ => some (.error .tooDeep)
  | depth + 1, w, position, list => some <|
    match FeatureSpec.parse list with
    | .error cause => .error (.failed (.invalidPhonemes cause))
    | .ok spec =>
      (m.firstAt (lookaheadAt depth) ⟨w.text, position, w.stop⟩ position).map fun first =>
        first.any spec.holds

end Pronouncer

section Asks

variable {ε : Type} {s : Setting} {w : Window} {position : Nat} {pattern : Bytes} {c : Positions}
  {b : UInt8} {e : ε}

/-- A turn of the loop asks, which shows if every question fails. -/
def Positions.Asks (s : Setting) (w : Window) (position : Nat) (pattern : Bytes) (c : Positions) :
    Prop :=
  turn s (fun _ _ => some (.error ())) w position pattern c = .error (.failed ())

lemma byteAt_ne_failed {bytes : Bytes} : byteAt bytes position ≠ .error (Fault.failed e) := by
  unfold byteAt
  split <;> nofun

lemma slice_ne_failed {bytes : Bytes} {start stop : Nat} :
    slice bytes start stop ≠ .error (Fault.failed e) := by
  unfold slice
  split <;> nofun

lemma back_ne_failed {count : Nat} : back position count ≠ .error (Fault.failed e) := by
  unfold back
  split <;> nofun

lemma readAhead_ne_failed {text : Bytes} {stop : Nat} :
    readAhead s b text position stop ≠ .error (Fault.failed e) := by
  unfold readAhead
  split
  · exact Outcome.bind_ne_error slice_ne_failed fun _ => nofun
  split
  · exact Outcome.bind_ne_error byteAt_ne_failed fun _ => nofun
  · nofun

lemma readBehind_ne_failed {text : Bytes} {start : Nat} :
    readBehind s b text position start ≠ .error (Fault.failed e) := by
  unfold readBehind
  split
  · refine Outcome.bind_ne_error slice_ne_failed fun available => ?_
    split
    · nofun
    · exact Outcome.bind_ne_error back_ne_failed fun _ => nofun
  split
  · exact Outcome.bind_ne_error back_ne_failed fun _ =>
      Outcome.bind_ne_error byteAt_ne_failed fun _ => nofun
  · nofun

/-- Reading what a byte stands for asks nothing. -/
lemma Positions.read_ne_failed : c.read s w b ≠ .error (Fault.failed e) := by
  unfold Positions.read
  split
  · exact Outcome.map_ne_error readAhead_ne_failed
  · exact Outcome.map_ne_error readAhead_ne_failed
  · exact Outcome.map_ne_error readBehind_ne_failed

lemma Turned.phase_of_failed {hook : Hook ε} {result : Except (Fault ε) (Option Positions)}
    (h : Turned s hook w position pattern c result) (hresult : result = .error (.failed e)) :
    c.phase = .right := by
  cases h with
  | startRight => cases hresult
  | startLeft => cases hresult
  | boundary => cases hresult
  | reply hphase => exact hphase
  | read => exact absurd hresult Positions.read_ne_failed

/-- Only a right context asks. -/
lemma Positions.Asks.phase_eq (h : c.Asks s w position pattern) : c.phase = .right := by
  by_cases hindex : c.index < pattern.length
  · exact (turned s _ w position hindex).phase_of_failed h
  · rw [Asks, turn, byteAt, List.getElem?_eq_none (Nat.le_of_not_lt hindex)] at h
    cases h

end Asks

section Plain

variable {ε : Type} {s : Setting} {hook : Hook ε} {w : Window} {position n : Nat}
  {pattern : Bytes} {c : Positions}

/-- No right context has been started, and none follows. -/
def Positions.Plain (pattern : Bytes) (c : Positions) : Prop :=
  c.phase ≠ .right ∧ rightMark ∉ pattern.drop c.index

/-- Where there is no right context, a turn does not start one. -/
lemma Turned.plain {result : Except (Fault ε) (Option Positions)} (hc : c.Plain pattern)
    (h : Turned s hook w position pattern c result) {c' : Positions}
    (hresult : result = .ok (some c')) : c'.Plain pattern := by
  have hle := (h.index_lt hresult).1.le
  refine ⟨fun hphase => ?_, fun hmem => hc.2 (List.drop_subset_drop_left _ hle hmem)⟩
  rcases h.phase_of_right hresult hphase with hright | hmark
  · exact hc.1 hright
  · exact hc.2 hmark

/-- A pattern without a right context starts without one, behind its guard. -/
lemma plain_of_start? (hpattern : StoredPattern.hasRightContext pattern = false)
    (h : start? s position pattern = some c) : c.Plain pattern := by
  have hbody : rightMark ∉ StoredPattern.body pattern := by
    simpa [StoredPattern.hasRightContext] using hpattern
  obtain ⟨index, -, hdrop, hstart⟩ := start?_eq s position pattern
  rw [hstart] at h
  split at h
  · cases h
    exact ⟨Phase.noConfusion, hdrop ▸ hbody⟩
  · cases h

lemma Reached.plain (hpattern : StoredPattern.hasRightContext pattern = false)
    (h : Reached s hook w position pattern n c) : c.Plain pattern := by
  induction h with
  | start h => exact plain_of_start? hpattern h
  | turn h hindex hturn ih => exact (turned s hook w position hindex).plain ih hturn

/-- A rule without a right context never asks. -/
lemma Reached.not_asks (hpattern : StoredPattern.hasRightContext pattern = false)
    (h : Reached s hook w position pattern n c) : ¬c.Asks s w position pattern :=
  fun hasks => (h.plain hpattern).1 hasks.phase_eq

variable (hook) in
/-- Without a right context, it does not matter who would answer. -/
lemma turn_congr (hook' : Hook ε) (hphase : c.phase ≠ .right) :
    turn s hook w position pattern c = turn s hook' w position pattern c := by
  have hquestion (b : UInt8) : c.question (ε := ε) pattern b = .ok none :=
    if_neg fun h => hphase h.2
  simp only [turn, hquestion]
  rfl

lemma scan_eq_turn (hindex : c.index < pattern.length) :
    scan s hook w position pattern c =
      match turn s hook w position pattern c with
      | .error e => .error e
      | .ok none => .ok none
      | .ok (some c') => scan s hook w position pattern c' := by
  rw [scan, dif_pos hindex]
  split
  all_goals
    rename_i hturn
    rw [hturn]

variable (hook) in
lemma scan_congr (hook' : Hook ε) (hc : c.Plain pattern) :
    scan s hook w position pattern c = scan s hook' w position pattern c := by
  fun_induction scan s hook w position pattern c with
  | case1 c hindex e hturn => rw [scan_eq_turn hindex, ← turn_congr hook hook' hc.1, hturn]
  | case2 c hindex hturn => rw [scan_eq_turn hindex, ← turn_congr hook hook' hc.1, hturn]
  | case3 c hindex c' hturn ih =>
    rw [scan_eq_turn hindex, ← turn_congr hook hook' hc.1, hturn]
    exact ih ((turned s hook w position hindex).plain hc hturn)
  | case4 c hindex => rw [scan, dif_neg hindex]

variable (hook) in
lemma fitAt_congr (hook' : Hook ε) (hpattern : StoredPattern.hasRightContext pattern = false) :
    fitAt s hook w position pattern = fitAt s hook' w position pattern := by
  unfold fitAt
  cases hstart : start? s position pattern with
  | none => rfl
  | some c => exact scan_congr hook hook' (plain_of_start? hpattern hstart)

end Plain

section Lifting

variable {ε φ : Type} {s : Setting} {g : ε → φ} {f : Lookahead ε} {p : Place}

/-- The answers of a lookahead, its errors told in another way. -/
def Lookahead.mapError (g : ε → φ) (f : Lookahead ε) : Lookahead φ := fun ahead list =>
  (f ahead list).mapError g

lemma answer?_mapError (c : Cursors) (b : UInt8) (rest : Bytes) :
    answer? (some (f.mapError g)) c b rest =
      (answer? (some f) c b rest).map fun (answer, tail) => (answer.mapError g, tail) := by
  by_cases h : c.phase = .right ∧ b = openLookahead
  · obtain ⟨hphase, rfl⟩ := h
    simp only [answer?, hphase, if_pos, Option.map_map]
    rfl
  · rw [answer?_eq_none (not_and_or.mp h), answer?_eq_none (not_and_or.mp h)]
    rfl

/-- What a pattern makes of the text does not depend on how errors are told. -/
lemma readPattern_mapError (c : Cursors) (pattern : Bytes) :
    readPattern s (some (f.mapError g)) p c pattern =
      (readPattern s (some f) p c pattern).mapError g := by
  fun_induction readPattern s (some f) p c pattern with
  | case1 c =>
    rw [readPattern]
    rfl
  | case2 c rest ih => rw [readPattern, if_pos rfl, ih]
  | case3 c rest hne ih => rw [readPattern, if_neg hne, if_pos rfl, ih]
  | case4 c rest hboundary hright hleft ih => rw [readPattern_boundary, if_pos hboundary, ih]
  | case5 c rest hboundary =>
    rw [readPattern_boundary, if_neg hboundary]
    rfl
  | case6 c b rest hright hleft hboundary e tail hanswer =>
    rw [readPattern_cons ⟨hboundary, hleft, hright⟩, answer?_mapError, hanswer]
    rfl
  | case7 c b rest hright hleft hboundary tail hanswer ih =>
    rw [readPattern_cons ⟨hboundary, hleft, hright⟩, answer?_mapError, hanswer]
    exact ih
  | case8 c b rest hright hleft hboundary tail hanswer =>
    rw [readPattern_cons ⟨hboundary, hleft, hright⟩, answer?_mapError, hanswer]
    rfl
  | case9 c b rest hright hleft hboundary hanswer c' hread ih =>
    rw [readPattern_cons ⟨hboundary, hleft, hright⟩, answer?_mapError, hanswer, hread]
    exact ih
  | case10 c b rest hright hleft hboundary hanswer hread =>
    rw [readPattern_cons ⟨hboundary, hleft, hright⟩, answer?_mapError, hanswer, hread]
    rfl

lemma fit_mapError (pattern : Bytes) :
    fit s (some (f.mapError g)) p pattern = (fit s (some f) p pattern).mapError g := by
  unfold fit
  split
  · exact readPattern_mapError _ _
  · rfl

lemma firstMatch_mapError (rules : List (Bytes × Bytes)) :
    firstMatch s (some (f.mapError g)) p rules = (firstMatch s (some f) p rules).mapError g := by
  induction rules with
  | nil => rfl
  | cons rule rules ih =>
    rw [firstMatch, firstMatch, fit_mapError]
    cases fit s (some f) p rule.1 with
    | error e => rfl
    | ok result =>
      cases result with
      | none => exact ih
      | some n => rfl

end Lifting

section Trying

variable {s : Setting} {hook : Hook Halt} {ask : Option (Lookahead Halt)} {w : Window}
  {position : Nat} {elide : Bool} {rules : List (Bytes × Bytes)}

/-- A rule that has been found, by where its anchor ends. -/
def Match.at (position : Nat) (found : Match) : Nat × Bytes :=
  (position + found.length, found.replacement)

lemma hasRightContext_of_leavesOut {rule : Bytes × Bytes} (h : leavesOut false rule = false) :
    StoredPattern.hasRightContext rule.1 = false := by
  simp only [leavesOut, Bool.not_false, Bool.true_and, Bool.or_eq_false_iff] at h
  exact h.2

/-- Where replacements may be elided, all rules are tried. -/
lemma filter_leavesOut_true (rules : List (Bytes × Bytes)) :
    rules.filter (!leavesOut true ·) = rules :=
  List.filter_eq_self.mpr fun _ _ => rfl

variable (hook) in
/-- The rules that a lookahead tries do not ask, so it does not matter who would answer. -/
lemma tryRules_congr (hook' : Hook Halt) : tryRules s hook false w position rules =
    tryRules s hook' false w position rules := by
  induction rules with
  | nil => rfl
  | cons rule rules ih =>
    rw [tryRules, tryRules, ih]
    cases hleaves : leavesOut false rule with
    | true => rfl
    | false => rw [fitAt_congr hook hook' (hasRightContext_of_leavesOut hleaves)]

/-- Trying rules by positions is trying them on the text of the window. -/
lemma tryRules_eq (hw : w.Has position) (rules : List (Bytes × Bytes)) :
    tryRules s (Hook.ofLookahead ask w) elide w position rules =
      (firstMatch s ask (w.place position) (rules.filter (!leavesOut elide ·))).map
        (Option.map (Match.at position)) := by
  induction rules with
  | nil => rfl
  | cons rule rules ih =>
    rw [tryRules, ih, fitAt_eq hw]
    cases hleaves : leavesOut elide rule with
    | true => rw [if_pos rfl, List.filter_cons_of_neg (by simp [hleaves])]
    | false =>
      rw [if_neg Bool.false_ne_true, List.filter_cons_of_pos (by simp [hleaves]), firstMatch]
      cases fit s ask (w.place position) rule.1 with
      | error halt => rfl
      | ok result => cases result <;> rfl

end Trying

namespace Pronouncer

variable {m : Pronouncer} {db : Database} {locale : String} {hook : Window → Hook Halt}
  {ask : Option (Lookahead Halt)} {w : Window} {position : Nat} {elide : Bool}

variable (hook) in
lemma matchAt_congr (hook' : Window → Hook Halt) :
    m.matchAt hook false w position = m.matchAt hook' false w position := by
  unfold matchAt
  simp only [tryRules_congr (hook w) (hook' w)]

/-- Applying a rule by positions is applying it to the text of the window. -/
lemma exists_matchAt_eq (m : Pronouncer) (hook : Window → Hook Halt) (elide : Bool)
    (hhook : hook w = Hook.ofLookahead ask w) (hw : w.Has position) (hlt : position < w.stop) :
    ∃ b rest, w.ahead position = b :: rest ∧ m.matchAt hook elide w position =
      firstMatch m.setting ask (w.place position) ((m.rules.get b).filter (!leavesOut elide ·)) >>=
        fun found => m.matched position (found.map (Match.at position)) := by
  have hne : w.ahead position ≠ [] := fun hnil =>
    absurd ((Window.ahead_eq_nil_iff hw.stop_le).mp hnil) (Nat.not_le_of_lt hlt)
  obtain ⟨b, rest, hahead⟩ := List.exists_cons_of_ne_nil hne
  have hget : w.text[position]? = some b := by
    rw [← Window.head?_ahead hlt, hahead]
    rfl
  refine ⟨b, rest, hahead, ?_⟩
  rw [matchAt, if_neg (Nat.not_le_of_lt hlt), byteAt, hget, hhook]
  change tryRules _ _ _ _ _ _ >>= _ = _
  rw [tryRules_eq hw]
  cases firstMatch m.setting ask (w.place position) ((m.rules.get b).filter (!leavesOut elide ·)) <;>
    rfl

/-- A pass that elides nothing applies what a lookahead finds, whoever would answer in it. -/
lemma matchAt_sounding (hm : ofDatabase db locale = .ok m) (hw : w.Has position)
    (hlt : position < w.stop) : m.matchAt hook false w position =
      m.matched position ((m.soundingMatch (w.place position)).map (Match.at position)) := by
  rw [matchAt_congr hook fun w => Hook.ofLookahead none w]
  obtain ⟨b, rest, hahead, hmatch⟩ :=
    exists_matchAt_eq m (fun w => Hook.ofLookahead none w) false rfl hw hlt
  have hget : m.sounding.get b = (m.rules.get b).filter (!leavesOut false ·) := by
    rw [(ofDatabase_ok hm).2.2, ByteTable.get_ofFn]
    exact List.filter_congr fun rule _ => by simp [isSounding, leavesOut]
  rw [hmatch, ← hget, ← find_of_ahead m.sounding _ _ (p := w.place position) hahead,
    find_sounding_eq hm]
  rfl

lemma matchAt_of_le (h : w.stop ≤ position) : m.matchAt hook elide w position = .ok none :=
  if_pos h

lemma firstAt_eq_matchAt : m.firstAt hook w position =
    match m.matchAt hook false w position with
    | .error (.failed (.unableToPronounce _)) => .ok none
    | .error e => .error e
    | .ok none => .ok none
    | .ok (some (_, first :: _)) => .ok (some first)
    | .ok (some (next, [])) =>
      if next ≤ position then .error .endless else m.firstAt hook w next := by
  rw [firstAt]
  split
  all_goals
    rename_i hmatch
    simp only [hmatch]
  rfl

lemma firstAt_of_le (h : w.stop ≤ position) : m.firstAt hook w position = .ok none := by
  rw [firstAt_eq_matchAt, matchAt_of_le h]

/-- A lookahead asks nothing itself, so it does not matter who would answer. -/
lemma firstAt_congr (hook hook' : Window → Hook Halt) (w : Window) (position : Nat) :
    m.firstAt hook w position = m.firstAt hook' w position := by
  -- One turn of the scan only depends on what a pass applies, which is the same for both.
  fun_induction firstAt m hook' w position with
  | case1 position i hmatch => rw [firstAt_eq_matchAt, matchAt_congr hook hook', hmatch]
  | case2 position e hne hmatch =>
    rw [firstAt_eq_matchAt, matchAt_congr hook hook', hmatch]
    split
    · rename_i i hunable
      exact absurd (Except.error.inj hunable) (hne i)
    all_goals simp_all
  | case3 position hmatch => rw [firstAt_eq_matchAt, matchAt_congr hook hook', hmatch]
  | case4 position next first more hmatch =>
    rw [firstAt_eq_matchAt, matchAt_congr hook hook', hmatch]
  | case5 position next hmatch hnext =>
    rw [firstAt_eq_matchAt, matchAt_congr hook hook', hmatch]
    exact if_pos hnext
  | case6 position next hmatch hnext ih =>
    rw [firstAt_eq_matchAt, matchAt_congr hook hook', hmatch, ← ih]
    exact if_neg hnext

/-- What a rule reads, the text ahead holds. -/
lemma length_le_of_soundingMatch (hm : ofDatabase db locale = .ok m) {p : Place} {found : Match}
    (h : m.soundingMatch p = some found) : found.length ≤ p.ahead.length := by
  have hfind := find_sounding_eq hm (none : Option (Lookahead Empty)) p
  rw [h] at hfind
  unfold RuleTable.find at hfind
  split at hfind
  · cases hfind
  · obtain ⟨rule, -, hfit, -⟩ := exists_mem_of_firstMatch hfind
    unfold fit at hfit
    split at hfit
    · have hstart : (Cursors.start p).Within 0 p := ⟨Nat.zero_le _, Nat.zero_add _⟩
      exact (hstart.of_readPattern hfit).2
    · cases hfit

/-- One turn of the scan for a first phoneme. -/
lemma firstAt_sounding (hm : ofDatabase db locale = .ok m) (hook : Window → Hook Halt)
    (hw : w.Has position) (hlt : position < w.stop) :
    m.firstAt hook w position =
      match m.soundingMatch (w.place position) with
      | none => .ok none
      | some found =>
        match m.parse found.replacement with
        | .error e => .error (.failed e)
        | .ok (first :: _) => .ok (some first)
        | .ok [] =>
          if found.length = 0 then .error .endless
          else m.firstAt hook w (position + found.length) := by
  rw [firstAt_eq_matchAt, matchAt_sounding hm hw hlt]
  cases m.soundingMatch (w.place position) with
  | none => rfl
  | some found =>
    rw [Option.map_some, Match.at, matched]
    dsimp only
    cases hparse : m.parse found.replacement with
    | error e =>
      obtain ⟨cause, rfl⟩ := exists_cause_of_parse hparse
      rfl
    | ok phonemes =>
      cases phonemes with
      | cons first more => rfl
      | nil =>
        have hnext : position + found.length ≤ position ↔ found.length = 0 := by omega
        simp only [Except.mapError, Except.map, hnext]

/-- The first phoneme by positions is the first phoneme of the text of the window. -/
lemma firstAt_eq (hm : ofDatabase db locale = .ok m) (hook : Window → Hook Halt)
    (hw : w.Has position) :
    m.firstAt hook w position = (m.firstPhoneme (w.place position)).mapError .ofError := by
  -- The induction is on the text ahead; the place and the position move together in the window.
  generalize hp : w.place position = p
  have hlt (hahead : p.ahead ≠ []) : position < w.stop :=
    Nat.lt_of_not_le fun hle => hahead (hp ▸ (Window.ahead_eq_nil_iff hw.stop_le).mpr hle)
  fun_induction firstPhoneme m p generalizing position with
  | case1 p hahead =>
    rw [← hp] at hahead
    rw [firstAt_of_le ((Window.ahead_eq_nil_iff hw.stop_le).mp hahead)]
    rfl
  | case2 p hahead hfound =>
    rw [firstAt_sounding hm hook hw (hlt hahead), hp, hfound]
    rfl
  | case3 p hahead found hfound e hparse =>
    obtain ⟨cause, rfl⟩ := exists_cause_of_parse hparse
    rw [firstAt_sounding hm hook hw (hlt hahead), hp, hfound]
    dsimp only
    rw [hparse]
    rfl
  | case4 p hahead found hfound first more hparse =>
    rw [firstAt_sounding hm hook hw (hlt hahead), hp, hfound]
    dsimp only
    rw [hparse]
    rfl
  | case5 p hahead found hfound hparse hlength =>
    rw [firstAt_sounding hm hook hw (hlt hahead), hp, hfound]
    dsimp only
    rw [hparse]
    exact if_pos hlength
  | case6 p hahead found hfound hparse hlength ih =>
    have hle := length_le_of_soundingMatch hm hfound
    have hstop : position + found.length ≤ w.stop := by
      have hlength := Window.length_ahead hw.stop_le position
      have := hlt hahead
      rw [← hp] at hle
      change _ ≤ (w.ahead position).length at hle
      omega
    have hnext : w.Has (position + found.length) :=
      ⟨hw.start_le.trans (Nat.le_add_right _ _), hstop, hw.stop_le⟩
    have hplace : w.place (position + found.length) = p.advance found.length := by
      rw [← hp, Window.place_advance hw hstop]
    rw [firstAt_sounding hm hook hw (hlt hahead), hp, hfound]
    dsimp only
    rw [hparse]
    dsimp only
    rw [if_neg hlength]
    refine ih hnext hplace fun hne => Nat.lt_of_not_le fun hle => hne ?_
    rw [← hplace]
    exact (Window.ahead_eq_nil_iff hw.stop_le).mpr hle

/-- A lookahead answers by the text of its window from where it asks, whoever would answer in it. -/
lemma lookaheadAt_eq (hm : ofDatabase db locale = .ok m) (depth : Nat)
    (hstop : w.stop ≤ w.text.length) :
    m.lookaheadAt (depth + 1) w = Hook.ofLookahead (some (m.lookahead.mapError .ofError)) w := by
  funext position list
  rw [lookaheadAt, Hook.ofLookahead, Option.map_some, Lookahead.mapError, lookahead]
  -- The window of the pass starts where the lookahead asks, so its place has nothing behind it.
  cases FeatureSpec.parse list with
  | error cause => rfl
  | ok spec =>
    have hfirst : m.firstAt (m.lookaheadAt depth) ⟨w.text, position, w.stop⟩ position =
        (m.firstPhoneme (Place.start (w.ahead position))).mapError .ofError := by
      by_cases hle : position ≤ w.stop
      · have hw : (Window.mk w.text position w.stop).Has position := ⟨le_rfl, hle, hstop⟩
        rw [firstAt_eq hm _ hw, Window.place_start]
        rfl
      · have hnil : w.ahead position = [] :=
          (Window.ahead_eq_nil_iff hstop).mpr (Nat.le_of_not_le hle)
        have hend : (Place.start []).ahead = [] := rfl
        rw [firstAt_of_le (w := ⟨w.text, position, w.stop⟩) (Nat.le_of_not_le hle), hnil,
          firstPhoneme, dif_pos hend]
        rfl
    dsimp only
    rw [hfirst]
    cases m.firstPhoneme (Place.start (w.ahead position)) <;> rfl

/-- A rule applied by positions is the rule applied to the text, if lookaheads are allowed at all. -/
lemma matchAt_lookaheadAt (hm : ofDatabase db locale = .ok m) (depth : Nat) (text : Bytes)
    (position : Nat) :
    m.matchAt (m.lookaheadAt (depth + 1)) true (Window.whole text) position =
      ((m.next (Place.ofPosition text position)).mapError .ofError).map
        (Option.map fun step => (position + step.length, step.phonemes)) := by
  by_cases hlt : position < text.length
  · have hw : (Window.whole text).Has position := Window.whole_has hlt.le
    obtain ⟨b, rest, hahead, hmatch⟩ := exists_matchAt_eq m (m.lookaheadAt (depth + 1)) true
      (lookaheadAt_eq hm depth hw.stop_le) hw hlt
    have hfind := find_of_ahead m.rules m.setting (some m.lookahead)
      (p := (Window.whole text).place position) hahead
    have hne : (Place.ofPosition text position).ahead ≠ [] :=
      List.ne_nil_of_length_pos (by rw [Place.length_ahead_ofPosition]; omega)
    rw [hmatch, filter_leavesOut_true, firstMatch_mapError, ← hfind, Window.place_whole, next,
      if_neg hne, Place.position_ofPosition hlt.le]
    cases m.rules.find m.setting (some m.lookahead) (Place.ofPosition text position) with
    | error e => rfl
    | ok result =>
      cases result with
      | none => rfl
      | some found =>
        change m.matched position (some (found.at position)) = _
        rw [Match.at, matched]
        dsimp only
        cases hparse : m.parse found.replacement with
        | error e =>
          obtain ⟨cause, rfl⟩ := exists_cause_of_parse hparse
          rfl
        | ok phonemes => rfl
  · have hnil : (Place.ofPosition text position).ahead = [] :=
      List.drop_eq_nil_of_le (Nat.le_of_not_lt hlt)
    rw [matchAt_of_le (Nat.le_of_not_lt hlt), next, if_pos hnil]
    rfl

/-- A limit of one is as good as any other one. -/
lemma lookaheadAt_succ (m : Pronouncer) (depth : Nat) :
    m.lookaheadAt (depth + 1) = m.lookaheadAt 1 := by
  funext w position list
  rw [lookaheadAt, lookaheadAt]
  simp only [firstAt_congr (m.lookaheadAt depth) (m.lookaheadAt 0)]

lemma mapError_ofError_ne {α : Type} {x : Except MatchError α} {halt : Halt}
    (hhalt : ∀ e, Halt.ofError e ≠ halt) : x.mapError .ofError ≠ .error halt := by
  cases x with
  | error e => exact fun h => hhalt e (Except.error.inj h)
  | ok a => nofun

lemma ofError_ne_tooDeep (e : MatchError) : Halt.ofError e ≠ .tooDeep := by
  cases e <;> nofun

end Pronouncer

section Nesting

variable {m : Pronouncer} {db : Database} {locale : String}

/-- Lookaheads do not stand in one another. A rule without a right context never asks, whatever its
pattern holds, and a lookahead only tries rules of this kind; so it does not matter who would answer in
it, a limit of one is as good as any other one, and pronouncing never comes to it. -/
theorem lookaheads_never_nest (hm : Pronouncer.ofDatabase db locale = .ok m) :
    (∀ pattern, StoredPattern.hasRightContext pattern = false →
      ∀ (ε : Type) (s : Setting) (hook : Hook ε) (w : Window) (position : Nat),
        (∀ n c, Reached s hook w position pattern n c → ¬c.Asks s w position pattern) ∧
        ∀ hook' : Hook ε, fitAt s hook w position pattern = fitAt s hook' w position pattern) ∧
    (∀ b, ∀ rule ∈ m.rules.get b, leavesOut false rule = false →
      ∀ (hook : Hook Halt) (w : Window) (position n : Nat) (c : Positions),
        Reached m.setting hook w position rule.1 n c → ¬c.Asks m.setting w position rule.1) ∧
    (∀ hook hook' w position, m.firstAt hook w position = m.firstAt hook' w position) ∧
    (∀ depth, m.lookaheadAt (depth + 1) = m.lookaheadAt 1) ∧
    (∀ w : Window, w.stop ≤ w.text.length → ∀ position list,
      m.lookaheadAt 1 w position list ≠ some (.error .tooDeep)) ∧
    ∀ text position,
      m.matchAt (m.lookaheadAt 1) true (Window.whole text) position ≠ .error .tooDeep ∧
      m.matchAt (m.lookaheadAt 1) true (Window.whole text) position =
        ((m.next (Place.ofPosition text position)).mapError .ofError).map
          (Option.map fun step => (position + step.length, step.phonemes)) := by
  refine ⟨fun pattern hpattern ε s hook w position => ⟨fun n c h => h.not_asks hpattern, fun hook' =>
    fitAt_congr hook hook' hpattern⟩, fun b rule hrule hleaves hook w position n c h =>
    h.not_asks (hasRightContext_of_leavesOut hleaves), m.firstAt_congr, m.lookaheadAt_succ, ?_, ?_⟩
  · intro w hstop position list h
    rw [Pronouncer.lookaheadAt_eq hm 0 hstop] at h
    exact Pronouncer.mapError_ofError_ne Pronouncer.ofError_ne_tooDeep (Option.some.inj h)
  · intro text position
    have hnext := Pronouncer.matchAt_lookaheadAt hm 0 text position
    refine ⟨?_, hnext⟩
    rw [hnext]
    exact Outcome.map_ne_error (Pronouncer.mapError_ofError_ne Pronouncer.ofError_ne_tooDeep)

/-- The text `sb` makes the sample ask, and the lookahead does not ask again. -/
theorem lookaheads_never_nest_muted : ∃ data db m, Language.compile mutedSource = .ok data ∧
    Database.load data = .ok db ∧ Pronouncer.ofDatabase db "" = .ok m ∧
    m.matchAt (m.lookaheadAt 0) true (Window.whole [0x73, 0x62]) 0 = .error .tooDeep ∧
    m.matchAt (m.lookaheadAt 1) true (Window.whole [0x73, 0x62]) 0 ≠ .error .tooDeep := by
  obtain ⟨data, db, m, hcompile, hload, hm, -, hrules, -⟩ := exists_pronouncer_of_mutedSource
  have hw : (Window.whole [0x73, 0x62]).Has 0 := Window.whole_has (Nat.zero_le _)
  have hhook (w : Window) :
      m.lookaheadAt 0 w = Hook.ofLookahead (some fun _ _ => .error .tooDeep) w := rfl
  obtain ⟨b, rest, hahead, hmatch⟩ :=
    Pronouncer.exists_matchAt_eq m (m.lookaheadAt 0) true (hhook _) hw (by decide)
  refine ⟨data, db, m, hcompile, hload, hm, ?_,
    ((lookaheads_never_nest hm).2.2.2.2.2 [0x73, 0x62] 0).1⟩
  obtain ⟨rfl, -⟩ := List.cons.inj hahead
  have hrule : m.rules.get 0x73 = [(Bytes.ofString "s({vcd})", [0x7A]), ([0x73], [0x73])] := by
    rw [← Pronouncer.map_stored_rulesAt, hrules]
    decide
  have hbytes : Bytes.ofString "s({vcd})" = 0x73 :: rightMark :: openLookahead ::
      ([0x76, 0x63, 0x64] ++ closeLookahead :: [leftMark]) := by decide +kernel
  have hfit : fit m.setting (some fun _ _ => .error .tooDeep) ((Window.whole [0x73, 0x62]).place 0)
      (Bytes.ofString "s({vcd})") = .error Halt.tooDeep := by
    rw [hbytes]
    change readPattern _ _ _ _ (_ :: rightMark :: openLookahead :: (_ ++ closeLookahead :: _)) = _
    rw [readPattern_byte (by decide), members_literal (by decide)]
    change readPattern _ _ _ _ _ = _
    rw [readPattern, if_pos rfl, readPattern_list rfl (by decide)]
  rw [hmatch, filter_leavesOut_true, hrule, firstMatch, hfit]
  rfl

/-- A lookahead only depends on the text from where it asks, in what it answers and in how it fails. No
position of the text is told. -/
theorem lookahead_sees_only_ahead (hm : Pronouncer.ofDatabase db locale = .ok m) (depth : Nat)
    (list : Bytes) {text text' : Bytes} {position position' : Nat}
    (h : text.drop position = text'.drop position') :
    m.lookaheadAt (depth + 1) (Window.whole text) position list =
      m.lookaheadAt (depth + 1) (Window.whole text') position' list ∧
    m.lookaheadAt (depth + 1) (Window.whole text) position list =
      some ((m.lookahead (text.drop position) list).mapError .ofError) ∧
    ∀ i, m.lookaheadAt (depth + 1) (Window.whole text) position list ≠
      some (.error (.failed (.unableToPronounce i))) := by
  have hanswer (text : Bytes) (position : Nat) :
      m.lookaheadAt (depth + 1) (Window.whole text) position list =
        some ((m.lookahead (text.drop position) list).mapError .ofError) := by
    rw [Pronouncer.lookaheadAt_eq hm depth (w := Window.whole text) le_rfl, ← Window.ahead_whole]
    rfl
  refine ⟨by rw [hanswer, hanswer, h], hanswer text position, fun i hunable => ?_⟩
  rw [hanswer] at hunable
  cases hlookahead : m.lookahead (text.drop position) list with
  | ok answer =>
    rw [hlookahead] at hunable
    cases hunable
  | error e =>
    have hfails := fails_of_lookahead hlookahead
    rw [hlookahead] at hunable
    cases e with
    | unableToPronounce i => exact not_fails_unableToPronounce m i hfails
    | invalidPhonemes => cases hunable
    | stalled => cases hunable

/-- What stands before the `t` of `st` does not matter to the sample. -/
theorem lookahead_sees_only_ahead_muted : ∃ data db m, Language.compile mutedSource = .ok data ∧
    Database.load data = .ok db ∧ Pronouncer.ofDatabase db "" = .ok m ∧
    m.lookaheadAt 1 (Window.whole [0x73, 0x74]) 1 (Bytes.ofString "vls") =
      m.lookaheadAt 1 (Window.whole [0x74]) 0 (Bytes.ofString "vls") := by
  obtain ⟨data, db, m, hcompile, hload, hm, -⟩ := exists_pronouncer_of_mutedSource
  refine ⟨data, db, m, hcompile, hload, hm, ?_⟩
  exact (lookahead_sees_only_ahead hm 0 _ (show List.drop 1 [(0x73 : UInt8), 0x74] = [0x74] from rfl)).1

end Nesting

end LetterToSound.Matching
