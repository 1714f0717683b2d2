import Mathlib
import LetterToSound.Matching.Rule
import LetterToSound.Proofs.Pattern.Grammar

/-!
# What patterns mean

A reading of a source pattern has a meaning of its own at a place of a text: the anchor is read
forwards from the place, the right context forwards from behind the anchor, and the left context
backwards from the place, its last item first. A stored pattern fits exactly where the source
pattern that it has been made from holds, and the anchor reads as many bytes.
-/

namespace LetterToSound

open Pattern

namespace Pattern.Item

variable (members : UInt8 → List Bytes) (answers : Bytes → Bytes → Bool)

/-- Reads an item at the start of the text ahead. The result is what follows. A class reads the first
member that the text starts with, and a lookahead reads nothing. -/
def readAhead : Item → Bytes → Option Bytes
  | literal b, text => if text.head? = some b then some text.tail else none
  | letterClass id, text =>
    ((members id).find? (·.isPrefixOf text)).map fun m => text.drop m.length
  | boundary, text => if text = [] then some text else none
  | lookahead list, text => if answers text list then some text else none

/-- Reads an item at the end of the text behind. The result is what comes before. -/
def readBehind : Item → Bytes → Option Bytes
  | literal b, text => if text.getLast? = some b then some text.dropLast else none
  | letterClass id, text =>
    ((members id).find? (·.isSuffixOf text)).map fun m => text.take (text.length - m.length)
  | boundary, text => if text = [] then some text else none
  | lookahead _, _ => none

/-- Reads items at the start of the text ahead, the first one first. -/
def readAllAhead (items : List Item) (text : Bytes) : Option Bytes :=
  items.foldlM (fun text i => i.readAhead members answers text) text

/-- Reads items at the end of the text behind, the last one first. -/
def readAllBehind (items : List Item) (text : Bytes) : Option Bytes :=
  items.reverse.foldlM (fun text i => i.readBehind members text) text

end Pattern.Item

namespace Pattern.Reading

variable (members : UInt8 → List Bytes) (answers : Bytes → Bytes → Bool)

/-- The number of bytes that the anchor reads at a place where the pattern holds. -/
def meaning (r : Reading) (p : Place) : Option Nat := do
  let rest ← Item.readAllAhead members answers r.anchor p.ahead
  let _ ← Item.readAllAhead members answers (r.right.getD []) rest
  let _ ← Item.readAllBehind members (r.left.getD []) p.behind.reverse
  return p.ahead.length - rest.length

end Pattern.Reading

namespace Matching

section Members

lemma firstMember_eq (members : List Bytes) (text : Bytes) :
    firstMember members text =
      (members.find? (·.isPrefixOf text)).map fun m => (m.length, text.drop m.length) := by
  induction members with
  | nil => rfl
  | cons m members ih =>
    rw [firstMember, List.findSome?_cons, ← firstMember, ih, List.find?_cons]
    cases h : m.isPrefixOf? text with
    | none =>
      have hnot : m.isPrefixOf text = false := by
        rw [Bool.eq_false_iff]
        intro hprefix
        obtain ⟨rest, hrest⟩ := List.isPrefixOf_iff_prefix.mp hprefix
        rw [List.isPrefixOf?_eq_some_iff_append_eq.mpr hrest] at h
        cases h
      rw [hnot]
      rfl
    | some rest =>
      obtain rfl := List.isPrefixOf?_eq_some_iff_append_eq.mp h
      rw [List.isPrefixOf_iff_prefix.mpr (List.prefix_append m rest)]
      simp

/-- Reading backwards is reading the reversed members forwards in the reversed text. -/
lemma firstMember_reverse (members : List Bytes) (text : Bytes) :
    firstMember (members.map List.reverse) text.reverse =
      (members.find? (·.isSuffixOf text)).map fun m =>
        (m.length, (text.take (text.length - m.length)).reverse) := by
  rw [firstMember_eq, List.find?_map, Option.map_map]
  have hpred : ((fun m : Bytes => m.isPrefixOf text.reverse) ∘ List.reverse) =
      fun m : Bytes => m.isSuffixOf text := rfl
  rw [hpred]
  congr 1
  funext m
  simp [List.drop_reverse]

lemma firstMember_literal (b : UInt8) (text : Bytes) :
    firstMember [[b]] text = if text.head? = some b then some (1, text.tail) else none := by
  rw [firstMember_eq]
  cases text with
  | nil => rfl
  | cons c text =>
    by_cases hb : b = c
    · simp [hb, List.isPrefixOf]
    · simp [hb, Ne.symm hb, List.isPrefixOf]

end Members

section Steps

variable {ε : Type} {s : Setting} {ask : Option (Lookahead ε)} {answers : Bytes → Bytes → Bool}
  {p : Place} {c : Cursors}

/-- A lookahead that only ever answers, and never fails. -/
def Answers (ask : Option (Lookahead ε)) (answers : Bytes → Bytes → Bool) : Prop :=
  ∃ f, ask = some f ∧ ∀ ahead list, f ahead list = .ok (answers ahead list)

lemma answer?_eq_none {b : UInt8} {rest : Bytes} (h : c.phase ≠ .right ∨ b ≠ openLookahead) :
    answer? ask c b rest = none := by
  unfold answer?
  split
  · rename_i hphase
    rw [if_neg (h.resolve_left fun hne => hne hphase)]
  · rfl

/-- What a byte that is no mark does: it is answered, or it is read as one of its members. -/
lemma readPattern_cons {b : UInt8} {rest : Bytes}
    (hb : b ≠ boundary ∧ b ≠ leftMark ∧ b ≠ rightMark) :
    readPattern s ask p c (b :: rest) = match answer? ask c b rest with
      | some (.error e, _) => .error e
      | some (.ok true, tail) => readPattern s ask p c tail
      | some (.ok false, _) => .ok none
      | none =>
        match c.read (s.members b) with
        | some c => readPattern s ask p c rest
        | none => .ok none := by
  rw [readPattern, if_neg hb.2.2, if_neg hb.2.1, if_neg hb.1]
  split
  case h_4 hanswer => cases c.read (s.members b) <;> simp only [hanswer]
  all_goals
    rename_i hanswer
    rw [hanswer]

/-- A byte that is no mark is read as one of its members if nobody answers. -/
lemma readPattern_of_answer?_eq_none {b : UInt8} {rest : Bytes}
    (hb : b ≠ boundary ∧ b ≠ leftMark ∧ b ≠ rightMark) (hnone : answer? ask c b rest = none) :
    readPattern s ask p c (b :: rest) = match c.read (s.members b) with
      | some c => readPattern s ask p c rest
      | none => .ok none := by
  rw [readPattern_cons hb, hnone]

/-- A byte that is no mark, and asks nothing, is read as one of its members. -/
lemma readPattern_unasked {b : UInt8} {rest : Bytes}
    (hb : b ≠ boundary ∧ b ≠ leftMark ∧ b ≠ rightMark)
    (hunasked : c.phase ≠ .right ∨ b ≠ openLookahead) :
    readPattern s ask p c (b :: rest) = match c.read (s.members b) with
      | some c => readPattern s ask p c rest
      | none => .ok none :=
  readPattern_of_answer?_eq_none hb (answer?_eq_none hunasked)

/-- A byte that is no operator is read as one of its members. -/
lemma readPattern_byte {b : UInt8} {rest : Bytes}
    (hb : b ≠ boundary ∧ b ≠ leftMark ∧ b ≠ rightMark ∧ b ≠ openLookahead) :
    readPattern s ask p c (b :: rest) = match c.read (s.members b) with
      | some c => readPattern s ask p c rest
      | none => .ok none :=
  readPattern_unasked ⟨hb.1, hb.2.1, hb.2.2.1⟩ (.inr hb.2.2.2)

lemma readPattern_boundary {rest : Bytes} :
    readPattern s ask p c (boundary :: rest) =
      if c.atBoundary then readPattern s ask p c rest else .ok none := by
  rw [readPattern, if_neg (by decide), if_neg (by decide), if_pos rfl]

/-- A list in a right context is asked about where the right context has come to. -/
lemma readPattern_list {f : Lookahead ε} {list rest : Bytes} (hphase : c.phase = .right)
    (hlist : closeLookahead ∉ list) :
    readPattern s (some f) p c (openLookahead :: (list ++ closeLookahead :: rest)) =
      match f c.right list with
      | .error e => .error e
      | .ok true => readPattern s (some f) p c rest
      | .ok false => .ok none := by
  have hanswer : answer? (some f) c openLookahead (list ++ closeLookahead :: rest) =
      some (f c.right list, rest) := by
    unfold answer?
    rw [hphase]
    dsimp only
    rw [if_pos rfl, SourcePattern.splitGroup?_append_cons rest hlist, Option.map_some]
  rw [readPattern_cons (by decide), hanswer]
  match f c.right list with
  | .error e => rfl
  | .ok true => rfl
  | .ok false => rfl

/-- A lookahead is answered from where the right context has come to. -/
lemma readPattern_lookahead {list rest : Bytes} (hask : Answers ask answers)
    (hphase : c.phase = .right) (hlist : closeLookahead ∉ list) :
    readPattern s ask p c (openLookahead :: (list ++ closeLookahead :: rest)) =
      if answers c.right list then readPattern s ask p c rest else .ok none := by
  obtain ⟨f, rfl, hf⟩ := hask
  rw [readPattern_list hphase hlist, hf]
  cases answers c.right list <;> rfl

/-- Items that are each read on their bytes are read one after the other. `put` makes the cursors of
the text that is left, and `valid` says which texts may be left. -/
lemma readPattern_items (read : Item → Bytes → Option Bytes) (put : Bytes → Cursors)
    (valid : Bytes → Prop) {items : List Item} {text : Bytes} (rest : Bytes)
    (hread : ∀ i ∈ items, ∀ text, valid text → ∀ rest,
      readPattern s ask p (put text) (i.bytes ++ rest) =
        (read i text).elim (.ok none) fun t => readPattern s ask p (put t) rest)
    (hvalid : ∀ i text t, valid text → read i text = some t → valid t) (htext : valid text) :
    readPattern s ask p (put text) (itemBytes items ++ rest) =
      (items.foldlM (fun t i => read i t) text).elim (.ok none) fun t =>
        readPattern s ask p (put t) rest := by
  induction items generalizing text with
  | nil => rfl
  | cons i items ih =>
    rw [itemBytes, List.flatMap_cons, List.append_assoc, ← itemBytes,
      hread i List.mem_cons_self text htext, List.foldlM_cons]
    cases h : read i text with
    | none => rfl
    | some t =>
      exact ih (fun i hi => hread i (List.mem_cons_of_mem _ hi)) (hvalid i text t htext h)

lemma members_literal {b : UInt8} (h : isLiteral b) : s.members b = [[b]] := by
  have hclass : isClassId b = false := by
    simp only [isLiteral, Bool.and_eq_true] at h
    simpa using h.1
  rw [Setting.members, if_neg (by simp [hclass])]

lemma members_class {id : UInt8} (h : isClassId id) : s.members id = s.classes.get id := by
  rw [Setting.members, if_pos h]

/-- An item that is read as the first of some strings that fits: a literal byte or a class. -/
inductive ReadsByte : Item → UInt8 → Prop
  | literal {b : UInt8} (h : isLiteral b) : ReadsByte (.literal b) b
  | letterClass {id : UInt8} (h : isClassId id) : ReadsByte (.letterClass id) id

namespace ReadsByte

variable {i : Item} {b : UInt8}

lemma bytes_eq (h : ReadsByte i b) : i.bytes = [b] := by
  cases h <;> rfl

lemma ne_operator (h : ReadsByte i b) :
    b ≠ boundary ∧ b ≠ leftMark ∧ b ≠ rightMark ∧ b ≠ openLookahead := by
  cases h with
  | literal h => exact Item.isLiteral_ne h
  | letterClass h => exact Item.isClassId_ne h

lemma of_inAnchor (h : i.InAnchor) : ∃ b, ReadsByte i b := by
  cases i with
  | literal b => exact ⟨b, .literal h⟩
  | letterClass id => exact ⟨id, .letterClass h⟩
  | boundary => exact h.elim
  | lookahead list => exact h.elim

/-- Reading forwards gives what follows the first member that fits. -/
lemma firstMember_ahead (h : ReadsByte i b) (text : Bytes) :
    firstMember (s.members b) text =
      (i.readAhead s.classes.get answers text).map fun t => (text.length - t.length, t) := by
  cases h with
  | literal h =>
    rw [members_literal h, firstMember_literal, Item.readAhead]
    split
    · rename_i hhead
      obtain ⟨rest, rfl⟩ := List.head?_eq_some_iff.mp hhead
      simp
    · rfl
  | letterClass h =>
    rw [members_class h, firstMember_eq, Item.readAhead, Option.map_map]
    refine Option.map_congr fun m hm => ?_
    have hfits := List.find?_some hm
    have hle := (List.isPrefixOf_iff_prefix.mp hfits).length_le
    simp only [Function.comp, List.length_drop, Prod.mk.injEq, and_true]
    omega

/-- Reading backwards gives what comes before the first member that fits. -/
lemma firstMember_behind (h : ReadsByte i b) (text : Bytes) :
    firstMember ((s.members b).map List.reverse) text.reverse =
      (i.readBehind s.classes.get text).map fun t => (text.length - t.length, t.reverse) := by
  cases h with
  | literal h =>
    rw [members_literal h, firstMember_reverse, Item.readBehind]
    rcases List.eq_nil_or_concat' text with rfl | ⟨text, c, rfl⟩
    · rfl
    · by_cases hb : b = c
      · simp [hb, List.isSuffixOf]
      · simp [hb, Ne.symm hb, List.isSuffixOf, List.isPrefixOf]
  | letterClass h =>
    rw [members_class h, firstMember_reverse, Item.readBehind, Option.map_map]
    refine Option.map_congr fun m hm => ?_
    have hfits := List.find?_some hm
    have hle := (List.isSuffixOf_iff_suffix.mp hfits).length_le
    simp only [Function.comp, List.length_take, Prod.mk.injEq, and_true]
    omega

end ReadsByte

/-- A text gets no longer by reading an item. -/
lemma length_readAhead_le {members : UInt8 → List Bytes} {i : Item} {text t : Bytes}
    (h : i.readAhead members answers text = some t) : t.length ≤ text.length := by
  unfold Item.readAhead at h
  split at h
  · split at h
    · cases h
      simp
    · cases h
  · obtain ⟨m, -, rfl⟩ := Option.map_eq_some_iff.mp h
    simp
  · split at h
    · cases h
      exact Nat.le_refl _
    · cases h
  · split at h
    · cases h
      exact Nat.le_refl _
    · cases h

variable (answers) in
/-- An item of an anchor moves the anchor's cursor. -/
lemma readPattern_anchor {i : Item} (hi : i.InAnchor) (hphase : c.phase = .anchor) (rest : Bytes) :
    readPattern s ask p c (i.bytes ++ rest) =
      (i.readAhead s.classes.get answers c.anchor).elim (.ok none) fun t =>
        readPattern s ask p
          { c with consumed := c.consumed + (c.anchor.length - t.length), anchor := t } rest := by
  obtain ⟨b, hb⟩ := ReadsByte.of_inAnchor hi
  rw [hb.bytes_eq, List.singleton_append, readPattern_byte hb.ne_operator, Cursors.read, hphase]
  dsimp only
  rw [hb.firstMember_ahead c.anchor]
  cases i.readAhead s.classes.get answers c.anchor <;> rfl

/-- An item of a right context moves its cursor, or asks without moving it. -/
lemma readPattern_right {i : Item} (hi : i.InRight) (hphase : c.phase = .right)
    (hask : (∃ list, i = .lookahead list) → Answers ask answers) (rest : Bytes) :
    readPattern s ask p c (i.bytes ++ rest) =
      (i.readAhead s.classes.get answers c.right).elim (.ok none) fun t =>
        readPattern s ask p { c with right := t } rest := by
  have hbyte {b : UInt8} (hb : ReadsByte i b) : readPattern s ask p c (i.bytes ++ rest) =
      (i.readAhead s.classes.get answers c.right).elim (.ok none) fun t =>
        readPattern s ask p { c with right := t } rest := by
    rw [hb.bytes_eq, List.singleton_append, readPattern_byte hb.ne_operator, Cursors.read, hphase]
    dsimp only
    rw [hb.firstMember_ahead c.right]
    cases i.readAhead s.classes.get answers c.right <;> rfl
  cases i with
  | literal b => exact hbyte (.literal hi)
  | letterClass id => exact hbyte (.letterClass hi)
  | boundary =>
    rw [Item.bytes, List.singleton_append, readPattern_boundary, Cursors.atBoundary, hphase,
      Item.readAhead]
    cases h : c.right with
    | nil =>
      have hsame : { c with phase := .right, right := [] } = c := by rw [← hphase, ← h]
      simp [hsame]
    | cons a text => simp
  | lookahead list =>
    have hbytes : (Item.lookahead list).bytes ++ rest =
        openLookahead :: (list ++ closeLookahead :: rest) := by simp [Item.bytes]
    rw [hbytes, readPattern_lookahead (hask ⟨list, rfl⟩) hphase hi, Item.readAhead]
    split <;> rfl

/-- An item of a left context moves its cursor backwards. -/
lemma readPattern_left {i : Item} (hi : i.InLeft) (hphase : c.phase = .left) (rest : Bytes) :
    readPattern s ask p c (i.bytes ++ rest) =
      (i.readBehind s.classes.get c.left.reverse).elim (.ok none) fun t =>
        readPattern s ask p { c with left := t.reverse } rest := by
  have hbyte {b : UInt8} (hb : ReadsByte i b) : readPattern s ask p c (i.bytes ++ rest) =
      (i.readBehind s.classes.get c.left.reverse).elim (.ok none) fun t =>
        readPattern s ask p { c with left := t.reverse } rest := by
    have hmember := hb.firstMember_behind (s := s) c.left.reverse
    rw [List.reverse_reverse] at hmember
    rw [hb.bytes_eq, List.singleton_append, readPattern_byte hb.ne_operator, Cursors.read, hphase]
    dsimp only
    rw [hmember]
    cases i.readBehind s.classes.get c.left.reverse <;> rfl
  cases i with
  | literal b => exact hbyte (.literal hi)
  | letterClass id => exact hbyte (.letterClass hi)
  | boundary =>
    rw [Item.bytes, List.singleton_append, readPattern_boundary, Cursors.atBoundary, hphase,
      Item.readBehind]
    cases h : c.left with
    | nil =>
      have hsame : { c with phase := .left, left := [] } = c := by rw [← hphase, ← h]
      simp [hsame]
    | cons a text => simp
  | lookahead list => exact hi.elim

end Steps

section Meaning

variable {ε : Type} {s : Setting} {ask : Option (Lookahead ε)} {answers : Bytes → Bytes → Bool}
  {p : Place} {r : Reading}

/-- A left context fits where its items can be read backwards from the place. -/
lemma readPattern_leftContext {items : List Item} {c : Cursors} (hitems : ∀ i ∈ items, i.InLeft) :
    readPattern s ask p c (leftMark :: (itemBytes items).reverse) =
      .ok (do
        let _ ← Item.readAllBehind s.classes.get items p.behind.reverse
        return c.consumed) := by
  have hreverse : (itemBytes items).reverse = itemBytes items.reverse ++ [] := by
    rw [itemBytes, itemBytes, List.reverse_flatMap, List.append_nil]
    refine List.flatMap_congr fun i hi => ?_
    exact Item.bytes_reverse_of_inLeft (hitems i (List.mem_reverse.mp hi))
  let put (t : Bytes) : Cursors := { c.startLeft p with left := t.reverse }
  have hstart : put p.behind.reverse = c.startLeft p := by
    simp [put, Cursors.startLeft]
  have hitem : ∀ i ∈ items.reverse, ∀ text, True → ∀ rest,
      readPattern s ask p (put text) (i.bytes ++ rest) =
        (i.readBehind s.classes.get text).elim (.ok none) fun t =>
          readPattern s ask p (put t) rest := by
    intro i hi text _ rest
    rw [readPattern_left (hitems i (List.mem_reverse.mp hi)) rfl rest]
    simp only [put, List.reverse_reverse]
  rw [readPattern, if_neg (by decide), if_pos rfl, hreverse, ← hstart,
    readPattern_items (fun i text => i.readBehind s.classes.get text) put (fun _ => True) [] hitem
      (fun _ _ _ _ _ => trivial) trivial, ← Item.readAllBehind]
  cases Item.readAllBehind s.classes.get items p.behind.reverse with
  | none => rfl
  | some t =>
    rw [Option.elim_some, readPattern]
    rfl

/-- A right context is read from behind the anchor. -/
lemma readPattern_rightContext {items : List Item} {c : Cursors} (rest : Bytes)
    (hitems : ∀ i ∈ items, i.InRight)
    (hask : (∃ list, Item.lookahead list ∈ items) → Answers ask answers) :
    readPattern s ask p c (rightMark :: (itemBytes items ++ rest)) =
      (Item.readAllAhead s.classes.get answers items c.anchor).elim (.ok none) fun t =>
        readPattern s ask p { c.startRight with right := t } rest := by
  let put (t : Bytes) : Cursors := { c.startRight with right := t }
  have hitem : ∀ i ∈ items, ∀ text, True → ∀ rest,
      readPattern s ask p (put text) (i.bytes ++ rest) =
        (i.readAhead s.classes.get answers text).elim (.ok none) fun t =>
          readPattern s ask p (put t) rest := by
    intro i hi text _ rest
    have hasks : (∃ list, i = .lookahead list) → Answers ask answers := by
      rintro ⟨list, rfl⟩
      exact hask ⟨list, hi⟩
    exact readPattern_right (hitems i hi) rfl hasks rest
  rw [readPattern, if_pos rfl]
  exact readPattern_items (fun i text => i.readAhead s.classes.get answers text) put (fun _ => True)
    rest hitem (fun _ _ _ _ _ => trivial) trivial

/-- The contexts fit where their items can be read, the right one from behind the anchor. -/
lemma readPattern_contexts {c : Cursors} (hr : r.WellFormed)
    (hask : r.HasLookahead → Answers ask answers) :
    readPattern s ask p c (StoredPattern.contextBytes r.parts.left r.parts.right) = .ok (do
      let _ ← Item.readAllAhead s.classes.get answers (r.right.getD []) c.anchor
      let _ ← Item.readAllBehind s.classes.get (r.left.getD []) p.behind.reverse
      return c.consumed) := by
  have hleft : ∀ i ∈ r.left.getD [], i.InLeft := by
    intro i hi
    cases hl : r.left with
    | none =>
      rw [hl] at hi
      cases hi
    | some items =>
      rw [hl] at hi
      exact hr.left items hl i hi
  cases hright : r.right with
  | none =>
    cases hl : r.left with
    | none =>
      rw [Reading.parts, hl, hright]
      dsimp only [Option.map_none, StoredPattern.contextBytes]
      rw [readPattern]
      rfl
    | some items =>
      rw [hl] at hleft
      rw [Reading.parts, hl, hright]
      exact readPattern_leftContext hleft
  | some items =>
    have hbytes : StoredPattern.contextBytes r.parts.left r.parts.right =
        rightMark :: (itemBytes items ++ leftMark :: (itemBytes (r.left.getD [])).reverse) := by
      rw [Reading.parts, hright]
      cases r.left <;> rfl
    have hasks : (∃ list, Item.lookahead list ∈ items) → Answers ask answers := by
      rintro ⟨list, hlist⟩
      exact hask ⟨items, hright, list, hlist⟩
    rw [hbytes, readPattern_rightContext _ (hr.right items hright) hasks, Option.getD_some]
    cases Item.readAllAhead s.classes.get answers items c.anchor with
    | none => rfl
    | some t => exact readPattern_leftContext hleft

/-- A stored pattern without its guard is read where its reading holds. -/
theorem readPattern_eq_meaning (hr : r.WellFormed) (hask : r.HasLookahead → Answers ask answers) :
    readPattern s ask p (Cursors.start p) (r.parts.anchor ++
      StoredPattern.contextBytes r.parts.left r.parts.right) =
        .ok (r.meaning s.classes.get answers p) := by
  let put (t : Bytes) : Cursors :=
    { Cursors.start p with consumed := p.ahead.length - t.length, anchor := t }
  have hstart : Cursors.start p = put p.ahead := by
    simp [put, Cursors.start]
  have hitem : ∀ i ∈ r.anchor, ∀ text, text.length ≤ p.ahead.length → ∀ rest,
      readPattern s ask p (put text) (i.bytes ++ rest) =
        (i.readAhead s.classes.get answers text).elim (.ok none) fun t =>
          readPattern s ask p (put t) rest := by
    intro i hi text htext rest
    rw [readPattern_anchor answers (hr.anchor i hi) rfl rest]
    cases h : i.readAhead s.classes.get answers text with
    | none => rfl
    | some t =>
      have hle := length_readAhead_le h
      have hconsumed : p.ahead.length - text.length + (text.length - t.length) =
          p.ahead.length - t.length := by omega
      simp only [put, Option.elim_some, hconsumed]
  have hanchor : r.parts.anchor = itemBytes r.anchor := rfl
  rw [hstart, hanchor, readPattern_items (fun i text => i.readAhead s.classes.get answers text) put
    (fun text => text.length ≤ p.ahead.length) _ hitem
    (fun i text t htext h => (length_readAhead_le h).trans htext) (Nat.le_refl _),
    ← Item.readAllAhead, Reading.meaning]
  cases Item.readAllAhead s.classes.get answers r.anchor p.ahead with
  | none => rfl
  | some t => exact readPattern_contexts hr hask

end Meaning

section Guards

/-- Whether the flag of a guard is as the guard asks. -/
def Setting.meets (s : Setting) : Option Guard → Bool
  | none => true
  | some ⟨.set, id⟩ => Language.Condition.isSet s.flags id
  | some ⟨.unset, id⟩ => !Language.Condition.isSet s.flags id

/-- In front of an anchor stands the guard that has been put there, and no other. -/
lemma admits_encode (s : Setting) (guard : Option Guard) {source : SourcePattern} {b : UInt8}
    {rest : Bytes} (hstarts : SourcePattern.startsAnchor b = true)
    (hanchor : source.anchor = b :: rest) :
    s.admits (StoredPattern.encode guard source) = s.meets guard ∧
      StoredPattern.body (StoredPattern.encode guard source) =
        source.anchor ++ StoredPattern.contextBytes source.left source.right := by
  refine ⟨?_, StoredPattern.body_encode guard hstarts hanchor⟩
  cases guard with
  | none =>
    rw [StoredPattern.encode, hanchor]
    simp [Setting.admits, Setting.meets, StoredPattern.ofByte?_of_startsAnchor hstarts]
  | some g =>
    obtain ⟨polarity, id⟩ := g
    cases polarity <;>
      simp [StoredPattern.encode, Guard.bytes, Setting.admits, Setting.meets, beq_eq_decide]

end Guards

/-- A stored pattern fits where its guard is met and the source pattern holds, and the anchor reads as
many bytes. Every accepted source has a reading, and the meaning is that of any of its readings. -/
theorem fit_eq_meaning {source : Bytes} {guard : Option Guard} {lookahead : Bool}
    {stored : StoredPattern} (h : StoredPattern.ofSource source guard lookahead = .ok stored) :
    (∃ r : Reading, r.WellFormed ∧ r.Writes source ∧ (lookahead = false → ¬r.HasLookahead)) ∧
    ∀ r : Reading, r.WellFormed → r.Writes source → ∀ (ε : Type) (s : Setting)
      (ask : Option (Lookahead ε)) (answers : Bytes → Bytes → Bool) (p : Place),
      (r.HasLookahead → Answers ask answers) → fit s ask p stored.bytes =
        .ok (if s.meets guard then r.meaning s.classes.get answers p else none) := by
  obtain ⟨hcheck, hbytes, -⟩ := StoredPattern.ofSource_ok h
  refine ⟨SourcePattern.exists_reading hcheck, fun r hr hwrites ε s ask answers p hask => ?_⟩
  rw [Reading.split_eq_parts hr hwrites] at hbytes
  obtain ⟨b, rest, hfirst, hstarts⟩ := hr.first
  have hanchor : r.parts.anchor = b :: itemBytes rest := by
    rw [Reading.parts, hfirst]
    rfl
  obtain ⟨hadmits, hbody⟩ := admits_encode s guard hstarts hanchor
  rw [fit, hbytes, hadmits, hbody, readPattern_eq_meaning hr hask]
  split <;> rfl

/-- The pattern `_x)y(z{vcd}` with a guard whose id is that of an opening parenthesis. -/
theorem fit_eq_meaning_sample : ∃ stored,
    StoredPattern.ofSource [0x5F, 0x78, 0x29, 0x79, 0x28, 0x7A, 0x7B, 0x76, 0x63, 0x64, 0x7D]
      (some ⟨.unset, 0x28⟩) true = .ok stored ∧
    fit ⟨.ofFn fun _ => [], #[]⟩
      (some fun ahead list =>
        (.ok (ahead == [0x62] && list == [0x76, 0x63, 0x64]) : Except Empty Bool))
      (Place.ofPosition [0x78, 0x79, 0x7A, 0x62] 1) stored.bytes = .ok (some 1) := by
  have hstored : StoredPattern.ofSource
      [0x5F, 0x78, 0x29, 0x79, 0x28, 0x7A, 0x7B, 0x76, 0x63, 0x64, 0x7D] (some ⟨.unset, 0x28⟩) true =
      .ok ⟨0x79, [0x21, 0x28, 0x79, 0x28, 0x7A, 0x7B, 0x76, 0x63, 0x64, 0x7D, 0x29, 0x78, 0x5F]⟩ := by
    cbv
  let r : Reading := ⟨some [.boundary, .literal 0x78], [.literal 0x79],
    some [.literal 0x7A, .lookahead [0x76, 0x63, 0x64]]⟩
  have hr : r.WellFormed := by
    refine ⟨⟨0x79, [], rfl, by decide⟩, ?_, ?_, ?_⟩
    · simp [r, Item.InAnchor, show isLiteral 0x79 = true by decide]
    · simp [r, Item.InLeft, show isLiteral 0x78 = true by decide]
    · simp [r, Item.InRight, closeLookahead, show isLiteral 0x7A = true by decide]
  refine ⟨_, hstored, ?_⟩
  rw [(fit_eq_meaning hstored).2 r hr ⟨[], .inl rfl, by decide⟩ _ _ _ _ _ fun _ =>
    ⟨_, rfl, fun _ _ => rfl⟩]
  cbv

end Matching

end LetterToSound
