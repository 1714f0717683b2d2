import Mathlib
import LetterToSound.Proofs.Matching.Coverage

/-!
# Windows of a text

A matcher may also be given a text, the part of it that may be read, and positions in it. Here this is
spelled out with every position checked: to look up a byte, or to cut out a part, fails where a position
is outside of the bytes. Reading forwards or backwards within a window never fails, and comes as far as
reading the first member that the text of the window starts or ends with.
-/

namespace LetterToSound.Matching

open Pattern

/-- The part of a text that may be read, from a position up to another one. -/
structure Window where
  text : Bytes
  start : Nat
  stop : Nat

namespace Window

def whole (text : Bytes) : Window := ⟨text, 0, text.length⟩

/-- A position is in the window, and the window is in its text. -/
structure Has (w : Window) (position : Nat) : Prop where
  start_le : w.start ≤ position
  le_stop : position ≤ w.stop
  stop_le : w.stop ≤ w.text.length

/-- What the window holds from a position on. -/
def ahead (w : Window) (position : Nat) : Bytes := (w.text.take w.stop).drop position

/-- What the window holds before a position, the last byte first. -/
def behind (w : Window) (position : Nat) : Bytes := ((w.text.take position).drop w.start).reverse

/-- The place at a position, in the window alone. -/
def place (w : Window) (position : Nat) : Place := ⟨w.behind position, w.ahead position⟩

variable {w : Window} {position : Nat}

lemma whole_has {text : Bytes} (h : position ≤ text.length) : (whole text).Has position :=
  ⟨Nat.zero_le _, h, Nat.le_refl _⟩

lemma place_whole (text : Bytes) (position : Nat) :
    (whole text).place position = Place.ofPosition text position := by
  simp [whole, place, behind, ahead, Place.ofPosition]

lemma ahead_whole (text : Bytes) (position : Nat) :
    (whole text).ahead position = text.drop position := by
  simp [whole, ahead]

/-- A window has nothing before the position that it starts from. -/
lemma place_start (text : Bytes) (position stop : Nat) :
    (Window.mk text position stop).place position =
      Place.start ((Window.mk text position stop).ahead position) := by
  simp [place, behind, Place.start]

lemma length_ahead (h : w.stop ≤ w.text.length) (position : Nat) :
    (w.ahead position).length = w.stop - position := by
  rw [ahead, List.length_drop, List.length_take, Nat.min_eq_left h]

lemma drop_ahead (w : Window) (position count : Nat) :
    (w.ahead position).drop count = w.ahead (position + count) := by
  rw [ahead, List.drop_drop, ahead]

lemma head?_ahead (h : position < w.stop) : (w.ahead position).head? = w.text[position]? := by
  rw [ahead, List.head?_drop, List.getElem?_take_of_lt h]

lemma ahead_eq_nil_iff (hw : w.stop ≤ w.text.length) :
    w.ahead position = [] ↔ w.stop ≤ position := by
  rw [← List.length_eq_zero_iff, length_ahead hw, Nat.sub_eq_zero_iff_le]

lemma length_behind (h : position ≤ w.text.length) :
    (w.behind position).length = position - w.start := by
  rw [behind, List.length_reverse, List.length_drop, List.length_take, Nat.min_eq_left h]

lemma drop_behind {count : Nat} (h : position ≤ w.text.length) (hcount : w.start + count ≤ position) :
    (w.behind position).drop count = w.behind (position - count) := by
  rw [behind, List.drop_reverse, behind, List.length_drop, List.length_take, List.take_drop,
    List.take_take]
  congr 3
  omega

lemma head?_behind (h : position ≤ w.text.length) (hstart : w.start < position) :
    (w.behind position).head? = w.text[position - 1]? := by
  rw [behind, List.head?_reverse, List.getLast?_drop, List.getLast?_take]
  have hle : ¬(w.text.take position).length ≤ w.start := by
    rw [List.length_take]
    omega
  rw [if_neg hle, if_neg (by omega), List.getElem?_eq_getElem (by omega)]
  rfl

/-- Going on in a window is going on in its text. -/
lemma place_advance {count : Nat} (hw : w.Has position) (hcount : position + count ≤ w.stop) :
    (w.place position).advance count = w.place (position + count) := by
  have hposition := hw.le_stop.trans hw.stop_le
  have htake : w.text.take (position + count) =
      w.text.take position ++ (w.ahead position).take count := by
    rw [List.take_add, ahead, List.drop_take, List.take_take, Nat.min_eq_left (by omega)]
  have hstart : w.start ≤ (w.text.take position).length := by
    rw [List.length_take, Nat.min_eq_left hposition]
    exact hw.start_le
  rw [place, place, Place.advance, drop_ahead, behind, behind, htake,
    List.drop_append_of_le_length hstart, List.reverse_append]

end Window

/-- Why the loop fails. -/
inductive Fault (ε : Type) where
  /-- A position is outside of the bytes that are looked at. -/
  | outOfRange
  /-- A lookahead has failed. -/
  | failed (e : ε)
deriving DecidableEq, Repr

section Bytes

variable {ε : Type}

/-- The byte at a position. -/
def byteAt (bytes : Bytes) (position : Nat) : Except (Fault ε) UInt8 :=
  match bytes[position]? with
  | some b => .ok b
  | none => .error .outOfRange

/-- The bytes from a position up to another one. -/
def slice (bytes : Bytes) (start stop : Nat) : Except (Fault ε) Bytes :=
  if start ≤ stop ∧ stop ≤ bytes.length then .ok ((bytes.take stop).drop start)
  else .error .outOfRange

/-- A position moved back. -/
def back (position count : Nat) : Except (Fault ε) Nat :=
  if count ≤ position then .ok (position - count) else .error .outOfRange

/-- Reads a literal byte, or the first member of a class, forwards from a position. -/
def readAhead (s : Setting) (b : UInt8) (text : Bytes) (position stop : Nat) :
    Except (Fault ε) (Option Nat) :=
  if isClassId b then do
    let available ← slice text position stop
    return ((s.classes.get b).find? (·.isPrefixOf available)).map fun m => position + m.length
  else if position < stop then do
    let found ← byteAt text position
    return if found = b then some (position + 1) else none
  else return none

/-- Reads a literal byte, or the first member of a class, backwards from a position. -/
def readBehind (s : Setting) (b : UInt8) (text : Bytes) (position start : Nat) :
    Except (Fault ε) (Option Nat) :=
  if isClassId b then do
    let available ← slice text start position
    match (s.classes.get b).find? (·.isSuffixOf available) with
    | none => return none
    | some m => return some (← back position m.length)
  else if start < position then do
    let before ← back position 1
    let found ← byteAt text before
    return if found = b then some before else none
  else return none

variable {s : Setting} {w : Window} {b : UInt8} {position : Nat} {bytes rest : Bytes}

lemma byteAt_of_drop (h : bytes.drop position = b :: rest) :
    byteAt (ε := ε) bytes position = .ok b := by
  have hb : bytes[position]? = some b := by
    rw [← List.head?_drop, h]
    rfl
  rw [byteAt, hb]

lemma slice_of_le {start stop : Nat} (h : start ≤ stop) (hstop : stop ≤ bytes.length) :
    slice (ε := ε) bytes start stop = .ok ((bytes.take stop).drop start) :=
  if_pos ⟨h, hstop⟩

lemma back_of_le {count : Nat} (h : count ≤ position) :
    back (ε := ε) position count = .ok (position - count) :=
  if_pos h

/-- What stands at a position that may be read is read as the first member that the text ahead starts
with. -/
lemma readAhead_eq (s : Setting) (b : UInt8) (h : position ≤ w.stop)
    (hstop : w.stop ≤ w.text.length) :
    readAhead (ε := ε) s b w.text position w.stop =
      .ok ((firstMember (s.members b) (w.ahead position)).map fun found => position + found.1) := by
  unfold readAhead Setting.members
  split
  · rw [Outcome.bind_eq_of_ok (slice_of_le h hstop), firstMember_eq, Option.map_map]
    rfl
  · rw [firstMember_literal]
    split
    · rename_i hlt
      obtain ⟨found, hget⟩ : ∃ found, w.text[position]? = some found :=
        ⟨_, List.getElem?_eq_getElem (hlt.trans_le hstop)⟩
      rw [Window.head?_ahead hlt, byteAt, hget]
      by_cases hb : found = b
      · simp [hb]
      · simp [hb]
    · rename_i hlt
      rw [(Window.ahead_eq_nil_iff hstop).mpr (Nat.le_of_not_lt hlt)]
      rfl

/-- The same for the text behind, which is read from its end. -/
lemma readBehind_eq (s : Setting) (b : UInt8) (h : w.start ≤ position)
    (hposition : position ≤ w.text.length) :
    readBehind (ε := ε) s b w.text position w.start =
      .ok ((firstMember ((s.members b).map List.reverse) (w.behind position)).map fun found =>
        position - found.1) := by
  unfold readBehind Setting.members
  split
  · rw [Outcome.bind_eq_of_ok (slice_of_le h hposition), Window.behind, firstMember_reverse,
      Option.map_map]
    cases hfind : (s.classes.get b).find? (·.isSuffixOf ((w.text.take position).drop w.start)) with
    | none => rfl
    | some m =>
      have hsuffix : m.isSuffixOf ((w.text.take position).drop w.start) = true := by
        simpa using List.find?_some hfind
      have hle := (List.isSuffixOf_iff_suffix.mp hsuffix).length_le
      rw [List.length_drop, List.length_take] at hle
      dsimp only
      rw [Outcome.bind_eq_of_ok (back_of_le (by omega))]
      rfl
  · rw [List.map_singleton, List.reverse_singleton, firstMember_literal]
    split
    · rename_i hlt
      obtain ⟨found, hget⟩ : ∃ found, w.text[position - 1]? = some found :=
        ⟨_, List.getElem?_eq_getElem (by omega)⟩
      rw [Window.head?_behind hposition hlt, Outcome.bind_eq_of_ok (back_of_le (by omega)), byteAt,
        hget]
      by_cases hb : found = b
      · simp [hb]
      · simp [hb]
    · rename_i hlt
      have hnil : w.behind position = [] := by
        rw [← List.length_eq_zero_iff, Window.length_behind hposition]
        omega
      rw [hnil]
      rfl

/-- What follows the first member is what a text holds behind it. -/
lemma eq_drop_of_firstMember {members : List Bytes} {text : Bytes} {n : Nat}
    (h : firstMember members text = some (n, rest)) : n ≤ text.length ∧ rest = text.drop n := by
  have hlength := length_of_firstMember h
  rw [firstMember_eq] at h
  obtain ⟨m, -, heq⟩ := Option.map_eq_some_iff.mp h
  cases heq
  exact ⟨by omega, rfl⟩

/-- Reading forwards never fails and ends in the window. -/
lemma exists_readAhead_eq (s : Setting) (b : UInt8) (h : position ≤ w.stop)
    (hstop : w.stop ≤ w.text.length) :
    ∃ result, readAhead (ε := ε) s b w.text position w.stop = .ok result ∧
      firstMember (s.members b) (w.ahead position) =
        result.map (fun i => (i - position, w.ahead i)) ∧
      ∀ i ∈ result, position ≤ i ∧ i ≤ w.stop := by
  refine ⟨_, readAhead_eq s b h hstop, ?_⟩
  cases hfound : firstMember (s.members b) (w.ahead position) with
  | none => exact ⟨rfl, fun i hi => nomatch hi⟩
  | some found =>
    obtain ⟨n, rest⟩ := found
    obtain ⟨hle, hrest⟩ := eq_drop_of_firstMember hfound
    rw [Window.length_ahead hstop] at hle
    rw [Window.drop_ahead] at hrest
    refine ⟨?_, fun i hi => ?_⟩
    · rw [hrest, Option.map_some, Option.map_some, Nat.add_sub_cancel_left]
    · cases hi
      dsimp only
      omega

/-- Reading backwards never fails and ends in the window. -/
lemma exists_readBehind_eq (s : Setting) (b : UInt8) (h : w.start ≤ position)
    (hposition : position ≤ w.text.length) :
    ∃ result, readBehind (ε := ε) s b w.text position w.start = .ok result ∧
      firstMember ((s.members b).map List.reverse) (w.behind position) =
        result.map (fun i => (position - i, w.behind i)) ∧
      ∀ i ∈ result, w.start ≤ i ∧ i ≤ position := by
  refine ⟨_, readBehind_eq s b h hposition, ?_⟩
  cases hfound : firstMember ((s.members b).map List.reverse) (w.behind position) with
  | none => exact ⟨rfl, fun i hi => nomatch hi⟩
  | some found =>
    obtain ⟨n, rest⟩ := found
    obtain ⟨hle, hrest⟩ := eq_drop_of_firstMember hfound
    rw [Window.length_behind hposition] at hle
    rw [Window.drop_behind hposition (by omega)] at hrest
    refine ⟨?_, fun i hi => ?_⟩
    · rw [hrest, Option.map_some, Option.map_some, Nat.sub_sub_self (by omega)]
    · cases hi
      dsimp only
      omega

end Bytes

end LetterToSound.Matching
