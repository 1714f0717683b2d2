import Mathlib
import LetterToSound.Proofs.Matching.Window

/-!
# Reading by positions

A rule can be tried on a window of a text by a loop that keeps a position in the pattern and three in
the text. One turn of the loop keeps all positions within the window, and does what reading a byte of
the pattern does to the text that is left. So the loop never looks outside of the text or the pattern,
it ends after as many turns as the pattern has bytes at most, and it tells where the anchor ends if the
rule fits.
-/

namespace LetterToSound.Matching

open Pattern

/-- What a matcher answers if the text at a position is to go on as a list of features asks. Without an
answer the list is read like other bytes. -/
abbrev Hook (ε : Type) := Nat → Bytes → Option (Except ε Bool)

/-- How far the loop has come, as positions in the pattern and in the text. -/
structure Positions where
  /-- Where the pattern is read on. -/
  index : Nat
  phase : Phase
  anchor : Nat
  right : Nat
  left : Nat
deriving DecidableEq, Repr

namespace Positions

variable {ε : Type}

/-- The pattern is read on behind the next byte. -/
def next (c : Positions) : Positions := { c with index := c.index + 1 }

/-- Starts the right context, behind the anchor. -/
def startRight (c : Positions) : Positions := { c with phase := .right, right := c.anchor }

/-- Starts the left context, before the position where the rule is tried. -/
def startLeft (c : Positions) (position : Nat) : Positions :=
  { c with phase := .left, left := position }

def atBoundary (w : Window) (c : Positions) : Bool :=
  match c.phase with
  | .anchor => false
  | .right => c.right == w.stop
  | .left => c.left == w.start

/-- Reads what a byte of the pattern stands for. -/
def read (s : Setting) (w : Window) (b : UInt8) (c : Positions) :
    Except (Fault ε) (Option Positions) :=
  match c.phase with
  | .anchor =>
    (readAhead s b w.text c.anchor w.stop).map (Option.map fun i => { c with anchor := i })
  | .right => (readAhead s b w.text c.right w.stop).map (Option.map fun i => { c with right := i })
  | .left => (readBehind s b w.text c.left w.start).map (Option.map fun i => { c with left := i })

/-- The list of features that the next byte asks about, if it starts one in a right context. -/
def question (pattern : Bytes) (b : UInt8) (c : Positions) : Except (Fault ε) (Option Bytes) :=
  if b = openLookahead ∧ c.phase = .right then do
    let rest ← slice pattern (c.index + 1) pattern.length
    match rest.idxOf? closeLookahead with
    | none => return none
    | some length => return some (← slice pattern (c.index + 1) (c.index + 1 + length))
  else return none

/-- What the answer about a list makes of the rest of the pattern. -/
def reply (c : Positions) (list : Bytes) : Except ε Bool → Except (Fault ε) (Option Positions)
  | .error e => .error (.failed e)
  | .ok false => .ok none
  | .ok true => .ok (some { c with index := c.index + list.length + 2 })

end Positions

section Loop

variable {ε : Type} (s : Setting) (hook : Hook ε) (w : Window) (position : Nat) (pattern : Bytes)

/-- One turn of the loop. Nothing comes of it if the pattern does not hold. -/
def turn (c : Positions) : Except (Fault ε) (Option Positions) := do
  let b ← byteAt pattern c.index
  if b = rightMark then return some c.next.startRight
  else if b = leftMark then return some (c.next.startLeft position)
  else if b = boundary then return if c.atBoundary w then some c.next else none
  else
    match ← c.question pattern b with
    | none => c.next.read s w b
    | some list =>
      match hook c.right list with
      | none => c.next.read s w b
      | some answer => c.reply list answer

end Loop

namespace Positions

variable {ε : Type} {s : Setting} {w : Window} {position : Nat} {pattern rest : Bytes}
  {c : Positions} {b : UInt8}

/-- The positions in the text are in the window, on their side of the position where the rule is
tried. -/
structure Inside (w : Window) (position : Nat) (c : Positions) : Prop where
  start_le : w.start ≤ c.left
  left_le : c.left ≤ position
  le_anchor : position ≤ c.anchor
  anchor_le : c.anchor ≤ w.stop
  le_right : position ≤ c.right
  right_le : c.right ≤ w.stop

/-- Where the pattern is read does not matter. -/
lemma Inside.at_index (h : c.Inside w position) (index : Nat) :
    { c with index := index }.Inside w position :=
  ⟨h.start_le, h.left_le, h.le_anchor, h.anchor_le, h.le_right, h.right_le⟩

/-- What the positions leave of the text. -/
def cursors (w : Window) (position : Nat) (c : Positions) : Cursors :=
  ⟨c.phase, c.anchor - position, w.ahead c.anchor, w.ahead c.right, w.behind c.left⟩

/-- Reading what a byte stands for stays within the window, and does to the positions what it does to
the text that is left. -/
lemma exists_read_eq (s : Setting) (b : UInt8) (hw : w.Has position) (hc : c.Inside w position) :
    ∃ result, c.read (ε := ε) s w b = .ok result ∧
      result.map (cursors w position) = (c.cursors w position).read (s.members b) ∧
      ∀ c' ∈ result, c'.Inside w position ∧ c'.index = c.index := by
  obtain ⟨index, phase, anchor, right, left⟩ := c
  obtain ⟨hstart, hleft, hanchor, hanchorStop, hright, hrightStop⟩ := hc
  have hposition := hw.le_stop.trans hw.stop_le
  cases phase with
  | anchor =>
    obtain ⟨result, hread, hmember, hresult⟩ := exists_readAhead_eq (ε := ε) s b hanchorStop hw.stop_le
    refine ⟨_, by rw [read, hread]; rfl, ?_, fun c' hc' => ?_⟩
    · rw [Cursors.read, cursors, hmember, Option.map_map, Option.map_map]
      refine Option.map_congr fun i hi => ?_
      have hle := (hresult i hi).1
      dsimp only at hanchor hle
      simp only [Function.comp_apply, cursors]
      congr 1
      omega
    · obtain ⟨i, hi, rfl⟩ := Option.map_eq_some_iff.mp hc'
      obtain ⟨hle, hstop⟩ := hresult i hi
      exact ⟨⟨hstart, hleft, hanchor.trans hle, hstop, hright, hrightStop⟩, rfl⟩
  | right =>
    obtain ⟨result, hread, hmember, hresult⟩ := exists_readAhead_eq (ε := ε) s b hrightStop hw.stop_le
    refine ⟨_, by rw [read, hread]; rfl, ?_, fun c' hc' => ?_⟩
    · rw [Cursors.read, cursors, hmember, Option.map_map, Option.map_map]
      rfl
    · obtain ⟨i, hi, rfl⟩ := Option.map_eq_some_iff.mp hc'
      obtain ⟨hle, hstop⟩ := hresult i hi
      exact ⟨⟨hstart, hleft, hanchor, hanchorStop, hright.trans hle, hstop⟩, rfl⟩
  | left =>
    obtain ⟨result, hread, hmember, hresult⟩ :=
      exists_readBehind_eq (ε := ε) s b hstart (hleft.trans hposition)
    refine ⟨_, by rw [read, hread]; rfl, ?_, fun c' hc' => ?_⟩
    · rw [Cursors.read, cursors, hmember, Option.map_map, Option.map_map]
      rfl
    · obtain ⟨i, hi, rfl⟩ := Option.map_eq_some_iff.mp hc'
      obtain ⟨hle, hstop⟩ := hresult i hi
      exact ⟨⟨hle, hstop.trans hleft, hanchor, hanchorStop, hright, hrightStop⟩, rfl⟩

section Questions

/-- A list in a right context is asked about. -/
lemma question_of_list {list : Bytes} (hphase : c.phase = .right)
    (hrest : pattern.drop c.index = openLookahead :: (list ++ closeLookahead :: rest))
    (hlist : closeLookahead ∉ list) :
    c.question (ε := ε) pattern openLookahead = .ok (some list) := by
  have htail : pattern.drop (c.index + 1) = list ++ closeLookahead :: rest := by
    rw [← List.drop_drop, hrest]
    rfl
  have hlength := congrArg List.length hrest
  simp only [List.length_drop, List.length_cons, List.length_append] at hlength
  have hindex : (list ++ closeLookahead :: rest).idxOf? closeLookahead = some list.length := by
    rw [List.idxOf?_eq_some_iff]
    refine ⟨by simp, by simp, fun j hj heq => hlist ?_⟩
    rw [List.getElem_append_left hj] at heq
    exact heq ▸ List.getElem_mem hj
  rw [question, if_pos ⟨rfl, hphase⟩, Outcome.bind_eq_of_ok (slice_of_le (by omega) le_rfl),
    List.take_length, htail, hindex]
  dsimp only
  rw [Outcome.bind_eq_of_ok (slice_of_le (by omega) (by omega)), ← List.take_drop, htail,
    List.take_left]
  rfl

/-- Nothing else is asked about. -/
lemma question_eq_none (hrest : pattern.drop c.index = b :: rest)
    (h : b = openLookahead → c.phase = .right → closeLookahead ∉ rest) :
    c.question (ε := ε) pattern b = .ok none := by
  rw [question]
  split
  · rename_i hask
    have htail : pattern.drop (c.index + 1) = rest := by
      rw [← List.drop_drop, hrest]
      rfl
    have hlength := congrArg List.length hrest
    simp only [List.length_drop, List.length_cons] at hlength
    rw [Outcome.bind_eq_of_ok (slice_of_le (by omega) le_rfl), List.take_length, htail,
      List.idxOf?_eq_none_iff.mpr (h hask.1 hask.2)]
    rfl
  · rfl

end Questions

end Positions

section Turns

variable {ε : Type} {s : Setting} {hook : Hook ε} {w : Window} {position : Nat} {pattern : Bytes}
  {c : Positions}

/-- What one turn of the loop does with the next byte of the pattern. -/
inductive Turned (s : Setting) (hook : Hook ε) (w : Window) (position : Nat) (pattern : Bytes)
    (c : Positions) : Except (Fault ε) (Option Positions) → Prop
  | startRight {rest : Bytes} (hrest : pattern.drop c.index = rightMark :: rest) :
      Turned s hook w position pattern c (.ok (some c.next.startRight))
  | startLeft {rest : Bytes} (hrest : pattern.drop c.index = leftMark :: rest) :
      Turned s hook w position pattern c (.ok (some (c.next.startLeft position)))
  | boundary {rest : Bytes} (hrest : pattern.drop c.index = boundary :: rest) :
      Turned s hook w position pattern c (.ok (if c.atBoundary w then some c.next else none))
  | reply {list rest : Bytes} (hphase : c.phase = .right)
      (hrest : pattern.drop c.index = openLookahead :: (list ++ closeLookahead :: rest))
      (hlist : closeLookahead ∉ list) {answer : Except ε Bool}
      (hanswer : hook c.right list = some answer) :
      Turned s hook w position pattern c (c.reply list answer)
  | read {b : UInt8} {rest : Bytes} (hrest : pattern.drop c.index = b :: rest)
      (hmarks : b ≠ Pattern.boundary ∧ b ≠ leftMark ∧ b ≠ rightMark)
      (hunanswered : ∀ list rest, c.phase = .right →
        pattern.drop c.index = openLookahead :: (list ++ closeLookahead :: rest) →
        closeLookahead ∉ list → hook c.right list = none) :
      Turned s hook w position pattern c (c.next.read s w b)

/-- A turn takes the next byte of the pattern. -/
lemma turned (s : Setting) (hook : Hook ε) (w : Window) (position : Nat)
    (hindex : c.index < pattern.length) :
    Turned s hook w position pattern c (turn s hook w position pattern c) := by
  obtain ⟨b, rest, hrest⟩ : ∃ b rest, pattern.drop c.index = b :: rest :=
    ⟨_, _, List.drop_eq_getElem_cons hindex⟩
  rw [turn, Outcome.bind_eq_of_ok (byteAt_of_drop hrest)]
  by_cases hright : b = rightMark
  · rw [if_pos hright]
    exact .startRight (hright ▸ hrest)
  by_cases hleft : b = leftMark
  · rw [if_neg hright, if_pos hleft]
    exact .startLeft (hleft ▸ hrest)
  by_cases hboundary : b = boundary
  · rw [if_neg hright, if_neg hleft, if_pos hboundary]
    exact .boundary (hboundary ▸ hrest)
  rw [if_neg hright, if_neg hleft, if_neg hboundary]
  by_cases hask : b = openLookahead ∧ c.phase = .right ∧ closeLookahead ∈ rest
  · obtain ⟨rfl, hphase, hclose⟩ := hask
    obtain ⟨list, tail, rfl, hlist⟩ := List.eq_append_cons_of_mem hclose
    rw [Outcome.bind_eq_of_ok (Positions.question_of_list hphase hrest hlist)]
    dsimp only
    cases hanswer : hook c.right list with
    | some answer => exact .reply hphase hrest hlist hanswer
    | none =>
      refine .read hrest ⟨hboundary, hleft, hright⟩ fun list' tail' _ hrest' hlist' => ?_
      obtain ⟨rfl, -⟩ := SourcePattern.eq_of_append_cons_eq hlist hlist'
        (List.cons.inj (hrest.symm.trans hrest')).2
      exact hanswer
  · rw [Outcome.bind_eq_of_ok (Positions.question_eq_none hrest fun hb hphase hclose =>
      hask ⟨hb, hphase, hclose⟩)]
    refine .read hrest ⟨hboundary, hleft, hright⟩ fun list tail hphase hrest' _ => ?_
    obtain ⟨rfl, rfl⟩ := List.cons.inj (hrest.symm.trans hrest')
    exact absurd ⟨rfl, hphase, by simp⟩ hask

lemma index_lt_of_drop {b : UInt8} {rest : Bytes} (h : pattern.drop c.index = b :: rest) :
    c.index < pattern.length := by
  by_contra hle
  rw [List.drop_eq_nil_of_le (Nat.le_of_not_lt hle)] at h
  cases h

lemma Positions.eq_of_read {c' : Positions} {b : UInt8}
    (h : c.read (ε := ε) s w b = .ok (some c')) : c'.index = c.index ∧ c'.phase = c.phase := by
  unfold Positions.read at h
  split at h
  all_goals
    obtain ⟨result, -, hresult⟩ := Outcome.map_eq_ok_iff.mp h
    obtain ⟨i, -, rfl⟩ := Option.map_eq_some_iff.mp hresult
    exact ⟨rfl, by simp_all⟩

namespace Turned

variable {result : Except (Fault ε) (Option Positions)}

/-- The pattern is read on, but not beyond its end. -/
lemma index_lt (h : Turned s hook w position pattern c result) {c' : Positions}
    (hresult : result = .ok (some c')) : c.index < c'.index ∧ c'.index ≤ pattern.length := by
  cases h with
  | startRight hrest =>
    cases hresult
    exact ⟨Nat.lt_succ_self _, index_lt_of_drop hrest⟩
  | startLeft hrest =>
    cases hresult
    exact ⟨Nat.lt_succ_self _, index_lt_of_drop hrest⟩
  | boundary hrest =>
    split at hresult
    · cases hresult
      exact ⟨Nat.lt_succ_self _, index_lt_of_drop hrest⟩
    · cases hresult
  | @reply list rest hphase hrest hlist answer hanswer =>
    have hlength := congrArg List.length hrest
    simp only [List.length_drop, List.length_cons, List.length_append] at hlength
    match answer, hresult with
    | .ok true, hresult =>
      cases hresult
      dsimp only
      omega
  | read hrest =>
    rw [(Positions.eq_of_read hresult).1]
    exact ⟨Nat.lt_succ_self _, index_lt_of_drop hrest⟩

/-- Only the mark of a right context leads into one. -/
lemma phase_of_right (h : Turned s hook w position pattern c result) {c' : Positions}
    (hresult : result = .ok (some c')) (hphase : c'.phase = .right) :
    c.phase = .right ∨ rightMark ∈ pattern.drop c.index := by
  cases h with
  | startRight hrest =>
    rw [hrest]
    exact .inr List.mem_cons_self
  | startLeft =>
    cases hresult
    cases hphase
  | boundary =>
    split at hresult
    · cases hresult
      exact .inl hphase
    · cases hresult
  | reply hphase' => exact .inl hphase'
  | read =>
    rw [(Positions.eq_of_read hresult).2] at hphase
    exact .inl hphase

/-- A turn never looks outside of the window, and leaves all positions within it. -/
lemma inside (hw : w.Has position) (hc : c.Inside w position)
    (h : Turned s hook w position pattern c result) :
    result ≠ .error .outOfRange ∧ ∀ c', result = .ok (some c') → c'.Inside w position := by
  cases h with
  | startRight =>
    refine ⟨nofun, fun c' h => ?_⟩
    cases h
    exact ⟨hc.start_le, hc.left_le, hc.le_anchor, hc.anchor_le, hc.le_anchor, hc.anchor_le⟩
  | startLeft =>
    refine ⟨nofun, fun c' h => ?_⟩
    cases h
    exact ⟨hw.start_le, le_rfl, hc.le_anchor, hc.anchor_le, hc.le_right, hc.right_le⟩
  | boundary =>
    refine ⟨nofun, fun c' h => ?_⟩
    split at h
    · cases h
      exact hc.at_index _
    · cases h
  | @reply list rest hphase hrest hlist answer hanswer =>
    match answer with
    | .error e => exact ⟨nofun, nofun⟩
    | .ok false => exact ⟨nofun, nofun⟩
    | .ok true =>
      refine ⟨nofun, fun c' h => ?_⟩
      cases h
      exact hc.at_index _
  | @read b rest hrest hmarks hunanswered =>
    obtain ⟨o, hread, -, ho⟩ :=
      Positions.exists_read_eq (ε := ε) s b hw (c := c.next) (hc.at_index _)
    rw [hread]
    refine ⟨nofun, fun c' h => ?_⟩
    cases h
    exact (ho c' rfl).1

end Turned

end Turns

section Scan

variable {ε : Type} (s : Setting) (hook : Hook ε) (w : Window) (position : Nat) (pattern : Bytes)

/-- The loop, up to the end of the pattern. The result is where the anchor ends. -/
def scan (c : Positions) : Except (Fault ε) (Option Nat) :=
  if _hindex : c.index < pattern.length then
    match _h : turn s hook w position pattern c with
    | .error e => .error e
    | .ok none => .ok none
    | .ok (some c') => scan c'
  else .ok (some c.anchor)
termination_by pattern.length - c.index
decreasing_by
  have := (turned s hook w position _hindex).index_lt _h
  omega

/-- Where the loop starts: behind the guard, if there is one and it lets the rule be tried. -/
def start? : Option Positions :=
  match pattern[0]?.bind Polarity.ofByte? with
  | none => some ⟨0, .anchor, position, position, position⟩
  | some polarity =>
    match pattern[1]? with
    | none => none
    | some id =>
      if Language.Condition.isSet s.flags id == (polarity == .set) then
        some ⟨2, .anchor, position, position, position⟩
      else none

/-- Tries a rule at a position of a window. The result is where the anchor ends; none if the rule does
not fit. -/
def fitAt : Except (Fault ε) (Option Nat) :=
  match start? s position pattern with
  | none => .ok none
  | some c => scan s hook w position pattern c

/-- Where the loop has come to after a number of turns. -/
inductive Reached : Nat → Positions → Prop
  | start {c : Positions} (h : start? s position pattern = some c) : Reached 0 c
  | turn {n : Nat} {c c' : Positions} (h : Reached n c) (hindex : c.index < pattern.length)
      (hturn : Matching.turn s hook w position pattern c = .ok (some c')) : Reached (n + 1) c'

end Scan

section Scanning

variable {ε : Type} {s : Setting} {hook : Hook ε} {w : Window} {position n : Nat} {pattern : Bytes}
  {c : Positions}

lemma start?_eq (s : Setting) (position : Nat) (pattern : Bytes) :
    ∃ index, index ≤ pattern.length ∧ pattern.drop index = StoredPattern.body pattern ∧
      start? s position pattern =
        if s.admits pattern then some ⟨index, .anchor, position, position, position⟩ else none := by
  cases pattern with
  | nil => exact ⟨0, le_rfl, rfl, rfl⟩
  | cons b rest =>
    cases hb : Polarity.ofByte? b with
    | none =>
      exact ⟨0, Nat.zero_le _, by simp [StoredPattern.body, hb], by simp [start?, Setting.admits, hb]⟩
    | some polarity =>
      cases rest with
      | nil => exact ⟨1, le_rfl, by simp [StoredPattern.body, hb], by simp [start?, Setting.admits, hb]⟩
      | cons id rest =>
        exact ⟨2, by simp, by simp [StoredPattern.body, hb], by simp [start?, Setting.admits, hb]⟩

lemma inside_of_start? (hw : w.Has position) (h : start? s position pattern = some c) :
    c.Inside w position ∧ c.index ≤ pattern.length := by
  obtain ⟨index, hindex, -, hstart⟩ := start?_eq s position pattern
  rw [hstart] at h
  split at h
  · cases h
    exact ⟨⟨hw.start_le, le_rfl, le_rfl, hw.le_stop, le_rfl, hw.le_stop⟩, hindex⟩
  · cases h

/-- However often the loop turns, all positions stay within the window, and each turn takes at least a
byte of the pattern. -/
lemma Reached.inside (hw : w.Has position) (h : Reached s hook w position pattern n c) :
    c.Inside w position ∧ n ≤ c.index ∧ c.index ≤ pattern.length := by
  induction h with
  | start h =>
    obtain ⟨hinside, hindex⟩ := inside_of_start? hw h
    exact ⟨hinside, Nat.zero_le _, hindex⟩
  | turn h hindex hturn ih =>
    obtain ⟨hinside, hn, -⟩ := ih
    have hturned := turned s hook w position hindex
    obtain ⟨hlt, hle⟩ := hturned.index_lt hturn
    exact ⟨(hturned.inside hw hinside).2 _ hturn, by omega, hle⟩

/-- From positions within the window, the loop never looks outside of it and ends in it. -/
lemma scan_inside (hw : w.Has position) (hc : c.Inside w position) :
    scan s hook w position pattern c ≠ .error .outOfRange ∧
      ∀ stop, scan s hook w position pattern c = .ok (some stop) → position ≤ stop ∧ stop ≤ w.stop := by
  fun_induction scan s hook w position pattern c with
  | case1 c hindex e hturn =>
    have hne := ((turned s hook w position hindex).inside hw hc).1
    refine ⟨fun heq => hne ?_, nofun⟩
    cases heq
    exact hturn
  | case2 => exact ⟨nofun, nofun⟩
  | case3 c hindex c' hturn ih => exact ih (((turned s hook w position hindex).inside hw hc).2 c' hturn)
  | case4 c hindex =>
    refine ⟨nofun, fun stop h => ?_⟩
    cases h
    exact ⟨hc.le_anchor, hc.anchor_le⟩

lemma fitAt_inside (hw : w.Has position) : fitAt s hook w position pattern ≠ .error .outOfRange ∧
    ∀ stop, fitAt s hook w position pattern = .ok (some stop) → position ≤ stop ∧ stop ≤ w.stop := by
  unfold fitAt
  cases hstart : start? s position pattern with
  | none => exact ⟨nofun, nofun⟩
  | some c => exact scan_inside hw (inside_of_start? hw hstart).1

end Scanning

section Reading

variable {ε : Type} {s : Setting} {ask : Option (Lookahead ε)} {w : Window} {position : Nat}
  {pattern : Bytes} {c : Positions}

/-- The answers of a lookahead that sees what the window holds ahead. -/
def Hook.ofLookahead (ask : Option (Lookahead ε)) (w : Window) : Hook ε := fun position list =>
  ask.map fun f => f (w.ahead position) list

/-- What a number of bytes that an anchor reads is as a position. -/
def reported (position : Nat) : Except ε (Option Nat) → Except (Fault ε) (Option Nat)
  | .error e => .error (.failed e)
  | .ok result => .ok (result.map (position + ·))

lemma Positions.atBoundary_cursors (hw : w.Has position) (hc : c.Inside w position) :
    (c.cursors w position).atBoundary = c.atBoundary w := by
  obtain ⟨index, phase, anchor, right, left⟩ := c
  have hle := hc.right_le
  have hstart := hc.start_le
  have hleft := hc.left_le
  have hstop := hw.stop_le
  have hposition := hw.le_stop
  dsimp only at hle hstart hleft
  cases phase with
  | anchor => rfl
  | right =>
    simp only [Cursors.atBoundary, cursors, atBoundary]
    rw [Bool.eq_iff_iff, List.isEmpty_iff, Window.ahead_eq_nil_iff hstop, beq_iff_eq]
    omega
  | left =>
    simp only [Cursors.atBoundary, cursors, atBoundary]
    rw [Bool.eq_iff_iff, List.isEmpty_iff, ← List.length_eq_zero_iff,
      Window.length_behind (by omega), beq_iff_eq]
    omega

/-- What reading the rest of a pattern gives, behind a turn. -/
def resumed (s : Setting) (ask : Option (Lookahead ε)) (w : Window) (position : Nat)
    (pattern : Bytes) : Except (Fault ε) (Option Positions) → Except ε (Option Nat)
  | .error (.failed e) => .error e
  | .ok (some c) =>
    readPattern s ask (w.place position) (c.cursors w position) (pattern.drop c.index)
  | _ => .ok none

/-- A turn does to the positions what reading a byte of the pattern does to the text that is left. -/
lemma Turned.readPattern_eq {result : Except (Fault ε) (Option Positions)} (hw : w.Has position)
    (hc : c.Inside w position)
    (h : Turned s (Hook.ofLookahead ask w) w position pattern c result) :
    readPattern s ask (w.place position) (c.cursors w position) (pattern.drop c.index) =
      resumed s ask w position pattern result := by
  have hnext {b : UInt8} {rest : Bytes} (hrest : pattern.drop c.index = b :: rest) :
      pattern.drop (c.index + 1) = rest := by
    rw [← List.drop_drop, hrest]
    rfl
  cases h with
  | startRight hrest =>
    rw [hrest, readPattern, if_pos rfl, ← hnext hrest]
    rfl
  | startLeft hrest =>
    rw [hrest, readPattern, if_neg (by decide), if_pos rfl, ← hnext hrest]
    rfl
  | boundary hrest =>
    rw [hrest, readPattern_boundary, Positions.atBoundary_cursors hw hc, ← hnext hrest]
    split <;> rfl
  | @reply list rest hphase hrest hlist answer hanswer =>
    obtain ⟨f, rfl, hf⟩ := Option.map_eq_some_iff.mp hanswer
    have htail : pattern.drop (c.index + list.length + 2) = rest := by
      rw [Nat.add_assoc, ← List.drop_drop, hrest]
      simp
    have hask : f (c.cursors w position).right list = answer := hf
    rw [hrest, readPattern_list hphase hlist, hask]
    cases answer with
    | error e => rfl
    | ok holds =>
      cases holds with
      | false => rfl
      | true =>
        rw [Positions.reply, resumed]
        dsimp only
        rw [htail]
        rfl
  | @read b rest hrest hmarks hunanswered =>
    have hnone : answer? ask (c.cursors w position) b rest = none := by
      unfold answer?
      split
      · rename_i f hphase
        split
        · rename_i hopen
          rw [Option.map_eq_none_iff]
          cases hsplit : Explicit.splitGroup? rest with
          | none => rfl
          | some found =>
            obtain ⟨rfl, hlist⟩ := SourcePattern.eq_of_splitGroup? hsplit
            cases hunanswered _ _ hphase (hopen ▸ hrest) hlist
        · rfl
      · rfl
    obtain ⟨o, hread, hcursors, ho⟩ :=
      Positions.exists_read_eq (ε := ε) s b hw (c := c.next) (hc.at_index _)
    have hsame : c.next.cursors w position = c.cursors w position := rfl
    rw [hrest, readPattern_of_answer?_eq_none hmarks hnone, hread, ← hsame, ← hcursors]
    cases o with
    | none => rfl
    | some c' =>
      rw [Option.map_some, resumed, (ho c' rfl).2, Positions.next, hnext hrest]

/-- The loop does what reading the rest of the pattern does. -/
lemma scan_eq (hw : w.Has position) (hc : c.Inside w position) :
    scan s (Hook.ofLookahead ask w) w position pattern c = reported position
      (readPattern s ask (w.place position) (c.cursors w position) (pattern.drop c.index)) := by
  fun_induction scan s (Hook.ofLookahead ask w) w position pattern c with
  | case1 c hindex e hturn =>
    have h := turned s (Hook.ofLookahead ask w) w position hindex
    have hne := (h.inside hw hc).1
    rw [h.readPattern_eq hw hc, hturn]
    cases e with
    | outOfRange => exact absurd hturn hne
    | failed e => rfl
  | case2 c hindex hturn =>
    rw [(turned s (Hook.ofLookahead ask w) w position hindex).readPattern_eq hw hc, hturn]
    rfl
  | case3 c hindex c' hturn ih =>
    have h := turned s (Hook.ofLookahead ask w) w position hindex
    rw [h.readPattern_eq hw hc, hturn, ih ((h.inside hw hc).2 c' hturn)]
    rfl
  | case4 c hindex =>
    rw [List.drop_eq_nil_of_le (Nat.le_of_not_lt hindex), readPattern, reported, Option.map_some]
    simp only [Positions.cursors]
    rw [Nat.add_sub_cancel' hc.le_anchor]

/-- Trying a rule by positions is trying it on the text of the window. -/
theorem fitAt_eq (hw : w.Has position) (pattern : Bytes) :
    fitAt s (Hook.ofLookahead ask w) w position pattern =
      reported position (fit s ask (w.place position) pattern) := by
  obtain ⟨index, hindex, hbody, hstart⟩ := start?_eq s position pattern
  rw [fitAt, fit, hstart]
  by_cases hadmits : s.admits pattern = true
  · rw [if_pos hadmits, if_pos hadmits]
    dsimp only
    rw [scan_eq hw ⟨hw.start_le, le_rfl, le_rfl, hw.le_stop, le_rfl, hw.le_stop⟩, hbody]
    simp only [Positions.cursors, Nat.sub_self]
    rfl
  · rw [if_neg hadmits, if_neg hadmits]
    rfl

/-- Whatever a stored pattern holds and a lookahead answers, all positions stay within the window where
a rule is tried in it, nothing is looked up outside of the text or of the pattern, and each turn of the
loop takes at least a byte of the pattern. The anchor ends in the window, where it ends if the rule is
tried on the text of the window. -/
theorem reading_inside_window (s : Setting) (hook : Hook ε) (hw : w.Has position)
    (pattern : Bytes) :
    (∀ n c, Reached s hook w position pattern n c →
      c.Inside w position ∧ n ≤ c.index ∧ c.index ≤ pattern.length ∧
        (c.index < pattern.length → turn s hook w position pattern c ≠ .error .outOfRange)) ∧
    fitAt s hook w position pattern ≠ .error .outOfRange ∧
    (∀ stop, fitAt s hook w position pattern = .ok (some stop) →
      position ≤ stop ∧ stop ≤ w.stop) ∧
    ∀ ask : Option (Lookahead ε), fitAt s (Hook.ofLookahead ask w) w position pattern =
      reported position (fit s ask (w.place position) pattern) := by
  refine ⟨fun n c hreached => ?_, (fitAt_inside hw).1, (fitAt_inside hw).2,
    fun ask => fitAt_eq hw pattern⟩
  obtain ⟨hinside, hn, hindex⟩ := hreached.inside hw
  exact ⟨hinside, hn, hindex, fun hlt => ((turned s hook w position hlt).inside hw hinside).1⟩

/-- A pattern with a left context and three openings of a right one, tried in the middle of `bab`. -/
theorem reading_inside_window_unbalanced :
    (Window.whole [0x62, 0x61, 0x62]).Has 1 ∧
    ∃ stop, fitAt ⟨.ofFn fun _ => [], #[]⟩ (fun _ _ => none : Hook Empty)
        (Window.whole [0x62, 0x61, 0x62]) 1 [0x61, 0x29, 0x62, 0x28, 0x62, 0x28, 0x28, 0x62] =
          .ok (some stop) ∧ 1 ≤ stop ∧ stop ≤ 3 := by
  have hw : (Window.whole [0x62, 0x61, 0x62]).Has 1 := Window.whole_has (by decide)
  have hfit : fitAt ⟨.ofFn fun _ => [], #[]⟩ (fun _ _ => none : Hook Empty)
      (Window.whole [0x62, 0x61, 0x62]) 1 [0x61, 0x29, 0x62, 0x28, 0x62, 0x28, 0x28, 0x62] =
        .ok (some 2) := by decide +kernel
  exact ⟨hw, 2, hfit, (reading_inside_window _ _ hw _).2.2.1 2 hfit⟩

end Reading

end LetterToSound.Matching
