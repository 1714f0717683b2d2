import Mathlib
import LetterToSound.Outcome
import LetterToSound.Pattern.Stored

/-!
# What a source pattern is made of

A source pattern is a sequence of items in up to three parts. An item is a literal byte, a letter
class, a boundary or a lookahead; a boundary and a lookahead only stand in contexts, and a lookahead
only in the right one. Every accepted pattern is written by such a reading, and cutting it at the
parentheses gives back the parts of the reading.
-/

namespace LetterToSound

namespace Pattern

/-- One thing that a pattern asks for. -/
inductive Item where
  | literal (b : UInt8)
  | letterClass (id : UInt8)
  | boundary
  /-- Asks whether the next phoneme has the features of a list. -/
  | lookahead (list : Bytes)
deriving DecidableEq, Repr

/-- Whether a byte stands for itself in every part of a pattern. -/
def isLiteral (b : UInt8) : Bool :=
  !isClassId b && b ∉ [Pattern.boundary, leftMark, rightMark, openLookahead]

namespace Item

/-- How an item is written. -/
def bytes : Item → Bytes
  | literal b => [b]
  | letterClass id => [id]
  | boundary => [Pattern.boundary]
  | lookahead list => openLookahead :: (list ++ [closeLookahead])

/-- Whether an item may stand in an anchor. -/
def InAnchor : Item → Prop
  | literal b => isLiteral b
  | letterClass id => isClassId id
  | boundary => False
  | lookahead _ => False

/-- Whether an item may stand in a left context. -/
def InLeft : Item → Prop
  | literal b => isLiteral b
  | letterClass id => isClassId id
  | boundary => True
  | lookahead _ => False

/-- Whether an item may stand in a right context. -/
def InRight : Item → Prop
  | literal b => isLiteral b
  | letterClass id => isClassId id
  | boundary => True
  | lookahead list => closeLookahead ∉ list

/-- The item that a byte outside of lookaheads stands for. -/
def ofByte (b : UInt8) : Item :=
  if isClassId b then letterClass b else if b = Pattern.boundary then boundary else literal b

end Item

/-- A pattern item by item, contexts in reading order. -/
structure Reading where
  left : Option (List Item)
  anchor : List Item
  right : Option (List Item)

/-- How items are written one after the other. -/
def itemBytes (items : List Item) : Bytes := items.flatMap Item.bytes

namespace Reading

/-- A reading whose parts hold what may stand in them. The anchor starts with a literal byte that is
neither taken for a guard nor for an operator. -/
structure WellFormed (r : Reading) : Prop where
  first : ∃ b rest, r.anchor = .literal b :: rest ∧ SourcePattern.startsAnchor b = true
  anchor : ∀ i ∈ r.anchor, i.InAnchor
  left : ∀ items ∈ r.left, ∀ i ∈ items, i.InLeft
  right : ∀ items ∈ r.right, ∀ i ∈ items, i.InRight

/-- A source is the reading written out. The parenthesis behind a right context may be left out. -/
def Writes (r : Reading) (source : Bytes) : Prop :=
  ∃ closing, (closing = [] ∨ closing = [leftMark]) ∧
    source = (r.left.elim [] fun items => itemBytes items ++ [leftMark]) ++ (itemBytes r.anchor ++
      r.right.elim [] fun items => rightMark :: (itemBytes items ++ closing))

/-- The parts of a reading as bytes. -/
def parts (r : Reading) : SourcePattern :=
  ⟨r.left.map itemBytes, itemBytes r.anchor, r.right.map itemBytes⟩

/-- Whether a reading asks for the phoneme that comes next. -/
def HasLookahead (r : Reading) : Prop := ∃ items ∈ r.right, ∃ list, Item.lookahead list ∈ items

end Reading

end Pattern

open Pattern

namespace Pattern.Item

lemma bytes_ofByte (b : UInt8) : (ofByte b).bytes = [b] := by
  unfold ofByte
  split_ifs with hclass hboundary
  · rfl
  · rw [hboundary]
    rfl
  · rfl

lemma itemBytes_map_ofByte (bytes : Bytes) : itemBytes (bytes.map ofByte) = bytes := by
  rw [itemBytes, List.flatMap_map]
  simp [bytes_ofByte]

lemma isLiteral_ne {b : UInt8} (h : isLiteral b) :
    b ≠ Pattern.boundary ∧ b ≠ leftMark ∧ b ≠ rightMark ∧ b ≠ openLookahead := by
  simp only [isLiteral, Bool.and_eq_true, decide_eq_true_eq, List.mem_cons, List.not_mem_nil,
    or_false, not_or] at h
  exact h.2

lemma isClassId_ne {b : UInt8} (h : isClassId b) :
    b ≠ Pattern.boundary ∧ b ≠ leftMark ∧ b ≠ rightMark ∧ b ≠ openLookahead := by
  refine ⟨?_, ?_, ?_, ?_⟩ <;> rintro rfl <;> revert h <;> decide

/-- The bytes of an item of an anchor or of a left context are no parentheses. -/
lemma mark_not_mem_of_inLeft {i : Item} (h : i.InLeft) :
    ∀ b ∈ i.bytes, b ≠ leftMark ∧ b ≠ rightMark := by
  intro b hb
  cases i with
  | literal c =>
    rw [List.mem_singleton.mp hb]
    exact ⟨(isLiteral_ne h).2.1, (isLiteral_ne h).2.2.1⟩
  | letterClass id =>
    rw [List.mem_singleton.mp hb]
    exact ⟨(isClassId_ne h).2.1, (isClassId_ne h).2.2.1⟩
  | boundary =>
    rw [List.mem_singleton.mp hb]
    decide
  | lookahead list => exact h.elim

/-- An item of an anchor or of a left context asks for no phoneme. -/
lemma openLookahead_not_mem_of_inLeft {i : Item} (h : i.InLeft) : openLookahead ∉ i.bytes := by
  intro hmem
  cases i with
  | literal c => exact (isLiteral_ne h).2.2.2 (List.mem_singleton.mp hmem).symm
  | letterClass id => exact (isClassId_ne h).2.2.2 (List.mem_singleton.mp hmem).symm
  | boundary => exact absurd (List.mem_singleton.mp hmem) (by decide)
  | lookahead list => exact h.elim

lemma inLeft_of_inAnchor {i : Item} (h : i.InAnchor) : i.InLeft := by
  cases i with
  | literal b => exact h
  | letterClass id => exact h
  | boundary => exact h.elim
  | lookahead list => exact h.elim

/-- An item that stands in a left context is written as one byte. -/
lemma bytes_reverse_of_inLeft {i : Item} (h : i.InLeft) : i.bytes.reverse = i.bytes := by
  cases i with
  | lookahead list => exact h.elim
  | _ => rfl

/-- The last byte of an item is no parenthesis. -/
lemma getLast?_bytes {i : Item} (h : i.InRight) : ∃ b, i.bytes.getLast? = some b ∧ b ≠ leftMark := by
  cases i with
  | literal b => exact ⟨b, rfl, (isLiteral_ne h).2.1⟩
  | letterClass id => exact ⟨id, rfl, (isClassId_ne h).2.1⟩
  | boundary => exact ⟨_, rfl, by decide⟩
  | lookahead list =>
    refine ⟨closeLookahead, ?_, by decide⟩
    rw [bytes, ← List.cons_append, List.getLast?_concat]

end Pattern.Item

namespace SourcePattern

section Cutting

/-- A list is cut at the first of its elements that is `b`. -/
lemma dropWhile_ne {b : UInt8} {xs : Bytes} (ys : Bytes) (h : b ∉ xs) :
    (xs ++ b :: ys).dropWhile (· != b) = b :: ys := by
  rw [List.dropWhile_append_of_pos fun x hx => by
    simpa using fun heq : x = b => h (heq ▸ hx)]
  simp

lemma takeWhile_ne {b : UInt8} {xs : Bytes} (ys : Bytes) (h : b ∉ xs) :
    (xs ++ b :: ys).takeWhile (· != b) = xs := by
  rw [List.takeWhile_append_of_pos fun x hx => by
    simpa using fun heq : x = b => h (heq ▸ hx)]
  simp

lemma dropWhile_ne_eq_nil {b : UInt8} {xs : Bytes} (h : b ∉ xs) : xs.dropWhile (· != b) = [] := by
  rw [List.dropWhile_eq_nil_iff]
  intro x hx
  simpa using fun heq : x = b => h (heq ▸ hx)

/-- There is only one first element that is `b`. -/
lemma eq_of_append_cons_eq {b : UInt8} {xs xs' ys ys' : Bytes} (h : b ∉ xs) (h' : b ∉ xs')
    (heq : xs ++ b :: ys = xs' ++ b :: ys') : xs = xs' ∧ ys = ys' := by
  obtain rfl : xs = xs' := by rw [← takeWhile_ne ys h, heq, takeWhile_ne ys' h']
  exact ⟨rfl, (List.cons.inj (List.append_cancel_left heq)).2⟩

end Cutting

/-- A pattern is cut behind a left context without parentheses. -/
lemma splitLeft_mark {left rest : Bytes} (h : leftMark ∉ left) (h' : rightMark ∉ left) :
    splitLeft (left ++ leftMark :: rest) = (some left, rest) := by
  rw [splitLeft, dropWhile_ne _ h, takeWhile_ne _ h]
  simp [h']

/-- A pattern has no left context if a right context comes first. -/
lemma splitLeft_none {anchor behind : Bytes} (h : leftMark ∉ anchor)
    (hbehind : behind = [] ∨ ∃ right, behind = rightMark :: right) :
    splitLeft (anchor ++ behind) = (none, anchor ++ behind) := by
  rcases hbehind with rfl | ⟨right, rfl⟩
  · rw [List.append_nil, splitLeft, dropWhile_ne_eq_nil h]
  · rw [splitLeft]
    split
    · rfl
    · have htake : (anchor ++ rightMark :: right).takeWhile (· != leftMark) =
          anchor ++ rightMark :: right.takeWhile (· != leftMark) := by
        rw [List.takeWhile_append_of_pos fun x hx => by
          simpa using fun heq : x = leftMark => h (heq ▸ hx)]
        rfl
      rw [htake, if_pos (by simp)]

lemma splitRight_mark {anchor right : Bytes} (h : rightMark ∉ anchor) :
    splitRight (anchor ++ rightMark :: right) = (anchor, some (dropClosing right)) := by
  rw [splitRight, dropWhile_ne _ h, takeWhile_ne _ h]

lemma splitRight_none {anchor : Bytes} (h : rightMark ∉ anchor) :
    splitRight anchor = (anchor, none) := by
  rw [splitRight, dropWhile_ne_eq_nil h]

/-- The parenthesis behind a right context is dropped if it is there. -/
lemma dropClosing_append {right closing : Bytes} (h : closing = [] ∨ closing = [leftMark])
    (hlast : right.getLast? ≠ some leftMark) : dropClosing (right ++ closing) = right := by
  rcases h with rfl | rfl
  · rw [List.append_nil, dropClosing, if_neg hlast]
  · rw [dropClosing, if_pos (by simp), List.dropLast_concat]

/-- A source is the parts written out. The parenthesis behind a right context may be left out. -/
def Spells (p : SourcePattern) (source : Bytes) : Prop :=
  ∃ closing, (closing = [] ∨ closing = [leftMark]) ∧
    source = (p.left.elim [] fun left => left ++ [leftMark]) ++ (p.anchor ++
      p.right.elim [] fun right => rightMark :: (right ++ closing))

/-- Parts that are told apart by the parentheses between them. -/
structure Separated (p : SourcePattern) : Prop where
  left : ∀ left ∈ p.left, leftMark ∉ left ∧ rightMark ∉ left
  anchor : leftMark ∉ p.anchor ∧ rightMark ∉ p.anchor
  right : ∀ right ∈ p.right, right.getLast? ≠ some leftMark

/-- Cutting a source at its parentheses gives back the parts that it has been written from. -/
lemma split_eq_of_spells {p : SourcePattern} {source : Bytes} (hp : p.Separated)
    (h : p.Spells source) : split source = p := by
  obtain ⟨closing, hclosing, rfl⟩ := h
  obtain ⟨left, anchor, right⟩ := p
  obtain ⟨hleft, ⟨hanchor, hanchor'⟩, hright⟩ := hp
  dsimp only at hleft hanchor hanchor' hright ⊢
  have hrest : splitRight (anchor ++ right.elim [] fun right => rightMark :: (right ++ closing)) =
      (anchor, right) := by
    cases right with
    | none =>
      rw [Option.elim_none, List.append_nil]
      exact splitRight_none hanchor'
    | some right =>
      rw [Option.elim_some, splitRight_mark hanchor', dropClosing_append hclosing (hright right rfl)]
  have hcut : splitLeft ((left.elim [] fun left => left ++ [leftMark]) ++
      (anchor ++ right.elim [] fun right => rightMark :: (right ++ closing))) =
        (left, anchor ++ right.elim [] fun right => rightMark :: (right ++ closing)) := by
    cases left with
    | none =>
      rw [Option.elim_none, List.nil_append]
      refine splitLeft_none hanchor ?_
      cases right with
      | none => exact .inl rfl
      | some right => exact .inr ⟨_, rfl⟩
    | some left =>
      obtain ⟨hleft, hleft'⟩ := hleft left rfl
      rw [Option.elim_some, List.append_assoc, List.singleton_append]
      exact splitLeft_mark hleft hleft'
  rw [split, hcut]
  dsimp only
  rw [hrest]

end SourcePattern

namespace Pattern.Reading

variable {r : Reading} {source : Bytes}

lemma marks_not_mem {items : List Item} (h : ∀ i ∈ items, i.InLeft) :
    leftMark ∉ itemBytes items ∧ rightMark ∉ itemBytes items := by
  constructor
  · intro hmem
    obtain ⟨i, hi, hb⟩ := List.mem_flatMap.mp hmem
    exact (Item.mark_not_mem_of_inLeft (h i hi) _ hb).1 rfl
  · intro hmem
    obtain ⟨i, hi, hb⟩ := List.mem_flatMap.mp hmem
    exact (Item.mark_not_mem_of_inLeft (h i hi) _ hb).2 rfl

lemma getLast?_itemBytes_ne {items : List Item} (h : ∀ i ∈ items, i.InRight) :
    (itemBytes items).getLast? ≠ some leftMark := by
  rcases List.eq_nil_or_concat' items with rfl | ⟨before, i, rfl⟩
  · simp [itemBytes]
  · obtain ⟨b, hlast, hne⟩ := Item.getLast?_bytes (h i (by simp))
    rw [itemBytes, List.flatMap_append, List.flatMap_singleton, List.getLast?_append, hlast]
    simpa using hne

lemma separated_parts (hr : r.WellFormed) : r.parts.Separated := by
  refine ⟨fun left hleft => ?_, marks_not_mem fun i hi => Item.inLeft_of_inAnchor (hr.anchor i hi),
    fun right hright => ?_⟩
  · obtain ⟨items, hitems, rfl⟩ := Option.map_eq_some_iff.mp hleft
    exact marks_not_mem (hr.left items hitems)
  · obtain ⟨items, hitems, rfl⟩ := Option.map_eq_some_iff.mp hright
    exact getLast?_itemBytes_ne (hr.right items hitems)

lemma spells_parts (h : r.Writes source) : r.parts.Spells source := by
  obtain ⟨closing, hclosing, rfl⟩ := h
  refine ⟨closing, hclosing, ?_⟩
  obtain ⟨left, anchor, right⟩ := r
  cases left <;> cases right <;> rfl

/-- Cutting a written reading at its parentheses gives back its parts. -/
theorem split_eq_parts (hr : r.WellFormed) (h : r.Writes source) :
    SourcePattern.split source = r.parts :=
  SourcePattern.split_eq_of_spells (separated_parts hr) (spells_parts h)

end Pattern.Reading

namespace SourcePattern

/-- What a cut leaves begins with the byte that it is made at. -/
lemma eq_of_dropWhile_ne {b c : UInt8} {xs ys : Bytes} (h : xs.dropWhile (· != b) = c :: ys) :
    xs = xs.takeWhile (· != b) ++ b :: ys := by
  have hhead := List.head?_dropWhile_not (· != b) xs
  rw [h] at hhead
  obtain rfl : c = b := by simpa using hhead
  rw [← h, List.takeWhile_append_dropWhile]

lemma exists_eq_dropClosing (right : Bytes) :
    ∃ closing, (closing = [] ∨ closing = [leftMark]) ∧ right = dropClosing right ++ closing := by
  by_cases hlast : right.getLast? = some leftMark
  · obtain ⟨before, rfl⟩ := List.getLast?_eq_some_iff.mp hlast
    exact ⟨[leftMark], .inr rfl, by rw [dropClosing, if_pos hlast, List.dropLast_concat]⟩
  · exact ⟨[], .inl rfl, by rw [dropClosing, if_neg hlast, List.append_nil]⟩

lemma eq_of_splitLeft (source : Bytes) :
    source = ((splitLeft source).1.elim [] fun left => left ++ [leftMark]) ++ (splitLeft source).2 := by
  unfold splitLeft
  split
  · rfl
  · rename_i hdrop
    dsimp only
    split
    · rfl
    · simpa using eq_of_dropWhile_ne hdrop

lemma exists_eq_of_splitRight (rest : Bytes) : ∃ closing, (closing = [] ∨ closing = [leftMark]) ∧
    rest = (splitRight rest).1 ++
      (splitRight rest).2.elim [] fun right => rightMark :: (right ++ closing) := by
  unfold splitRight
  split
  · exact ⟨[], .inl rfl, by simp⟩
  · rename_i right hdrop
    obtain ⟨closing, hclosing, heq⟩ := exists_eq_dropClosing right
    refine ⟨closing, hclosing, ?_⟩
    dsimp only [Option.elim_some]
    rw [← heq]
    exact eq_of_dropWhile_ne hdrop

/-- A source is its parts, put together again. -/
lemma spells_split (source : Bytes) : (split source).Spells source := by
  obtain ⟨closing, hclosing, hrest⟩ := exists_eq_of_splitRight (splitLeft source).2
  refine ⟨closing, hclosing, ?_⟩
  rw [split]
  dsimp only
  rw [← hrest]
  exact eq_of_splitLeft source

lemma inAnchor_ofByte {b : UInt8} (h : continuesAnchor b) : (Item.ofByte b).InAnchor := by
  unfold Item.ofByte
  split_ifs with hclass hboundary
  · exact hclass
  · rw [hboundary] at h
    exact absurd h (by decide)
  · simp only [Item.InAnchor, isLiteral, Bool.and_eq_true]
    exact ⟨by simpa using hclass, h⟩

lemma inLeft_ofByte {b : UInt8} (h : ¬(b = leftMark ∨ b = rightMark)) (hopen : b ≠ openLookahead) :
    (Item.ofByte b).InLeft := by
  unfold Item.ofByte
  split_ifs with hclass hboundary
  · exact hclass
  · trivial
  · simp_all [Item.InLeft, isLiteral]

/-- The bytes of an accepted anchor are written by items. -/
lemma exists_items_of_checkAnchor {anchor : Bytes} {group : UInt8}
    (h : checkAnchor anchor = .ok group) : ∃ rest : List Item,
      startsAnchor group = true ∧ itemBytes (.literal group :: rest) = anchor ∧
        ∀ i ∈ Item.literal group :: rest, i.InAnchor := by
  cases anchor with
  | nil => cases h
  | cons first rest =>
    rw [checkAnchor] at h
    split at h
    · cases h
    rename_i hstarts
    split at h
    · cases h
    rename_i hfind
    cases h
    have hfirst : startsAnchor group = true := by simpa using hstarts
    refine ⟨rest.map Item.ofByte, hfirst, ?_, List.forall_mem_cons.mpr ⟨?_, ?_⟩⟩
    · exact congrArg (group :: ·) (Item.itemBytes_map_ofByte rest)
    · simp only [startsAnchor, Bool.and_eq_true, decide_eq_true_eq, List.mem_cons, not_or] at hfirst
      simp only [Item.InAnchor, isLiteral, Bool.and_eq_true, decide_eq_true_eq, List.mem_cons, not_or]
      exact ⟨hfirst.1, hfirst.2.2.2⟩
    · intro i hi
      obtain ⟨b, hb, rfl⟩ := List.mem_map.mp hi
      exact inAnchor_ofByte (by simpa using List.find?_eq_none.mp hfind b hb)

lemma inRight_of_inLeft {i : Item} (h : i.InLeft) : i.InRight := by
  cases i with
  | literal b => exact h
  | letterClass id => exact h
  | boundary => exact h
  | lookahead list => exact h.elim

lemma splitGroup?_append_cons {list : Bytes} (after : Bytes) (h : closeLookahead ∉ list) :
    Explicit.splitGroup? (list ++ closeLookahead :: after) = some (list, after) := by
  unfold Explicit.splitGroup?
  rw [show Explicit.closeGroup = closeLookahead from rfl, dropWhile_ne after h, takeWhile_ne after h]

/-- A list of features is cut at the brace that ends it. -/
lemma eq_of_splitGroup? {bytes inside tail : Bytes}
    (h : Explicit.splitGroup? bytes = some (inside, tail)) :
    bytes = inside ++ closeLookahead :: tail ∧ closeLookahead ∉ inside := by
  unfold Explicit.splitGroup? at h
  split at h
  · cases h
  · rename_i hdrop
    cases h
    refine ⟨eq_of_dropWhile_ne hdrop, fun hmem => ?_⟩
    simpa [closeLookahead, Explicit.closeGroup] using List.mem_takeWhile_imp hmem

/-- The bytes of an accepted context are written by items. -/
lemma exists_items_of_checkContext {lookahead seen : Bool} {context : Bytes}
    (h : checkContext lookahead seen context = .ok ()) : ∃ items : List Item,
      itemBytes items = context ∧ (∀ i ∈ items, i.InRight) ∧
        (lookahead = false → ∀ i ∈ items, i.InLeft) := by
  fun_induction checkContext lookahead seen context with
  | case1 => exact ⟨[], rfl, by simp, by simp⟩
  | case2 => cases h
  | case3 => cases h
  | case4 => cases h
  | case5 => cases h
  | case6 => cases h
  | case7 seen rest hlookahead hseen inside tail hsplit spec hspec hmark ih =>
    obtain ⟨items, rfl, hright, -⟩ := ih h
    obtain ⟨rfl, hinside⟩ := eq_of_splitGroup? hsplit
    refine ⟨.lookahead inside :: items, ?_, List.forall_mem_cons.mpr ⟨hinside, hright⟩, ?_⟩
    · simp [itemBytes, Item.bytes]
    · simp_all
  | case8 seen b rest hmark hopen ih =>
    obtain ⟨items, rfl, hright, hleft⟩ := ih h
    have hfirst := inLeft_ofByte hmark hopen
    refine ⟨.ofByte b :: items, ?_, List.forall_mem_cons.mpr ⟨inRight_of_inLeft hfirst, hright⟩,
      fun hno => List.forall_mem_cons.mpr ⟨hfirst, hleft hno⟩⟩
    rw [itemBytes, List.flatMap_cons, Item.bytes_ofByte]
    rfl

/-- An accepted source is written by a reading. -/
theorem exists_reading {lookahead : Bool} {source : Bytes} {group : UInt8}
    (h : (split source).check lookahead = .ok group) :
    ∃ r : Reading, r.WellFormed ∧ r.Writes source ∧ (lookahead = false → ¬r.HasLookahead) := by
  obtain ⟨closing, hclosing, hsource⟩ := spells_split source
  generalize split source = p at h hsource
  obtain ⟨left, anchor, right⟩ := p
  obtain ⟨group', hanchor, h⟩ := Outcome.exists_of_bind_eq_ok h
  obtain ⟨_, hleft, h⟩ := Outcome.exists_of_bind_eq_ok h
  obtain ⟨_, hright, -⟩ := Outcome.exists_of_bind_eq_ok h
  obtain ⟨rest, hstarts, hbytes, hin⟩ := exists_items_of_checkAnchor hanchor
  obtain ⟨litems, hlbytes, -, hlin⟩ := exists_items_of_checkContext hleft
  obtain ⟨ritems, hrbytes, hrin, hrleft⟩ := exists_items_of_checkContext hright
  refine ⟨⟨left.map fun _ => litems, .literal group' :: rest, right.map fun _ => ritems⟩,
    ⟨⟨group', rest, rfl, hstarts⟩, hin, ?_, ?_⟩, ⟨closing, hclosing, ?_⟩, ?_⟩
  · intro items hitems
    obtain ⟨_, -, rfl⟩ := Option.map_eq_some_iff.mp hitems
    exact hlin rfl
  · intro items hitems
    obtain ⟨_, -, rfl⟩ := Option.map_eq_some_iff.mp hitems
    exact hrin
  · rw [hsource, hbytes]
    cases left <;> cases right <;> simp_all
  · rintro hno ⟨items, hitems, list, hmem⟩
    obtain ⟨_, -, rfl⟩ := Option.map_eq_some_iff.mp hitems
    exact hrleft hno _ hmem

end SourcePattern

namespace StoredPattern

variable {source : Bytes} {guard : Option Guard} {lookahead : Bool} {stored : StoredPattern}

/-- A stored pattern is its source put together anew, and its group is the byte that the anchor starts
with. -/
lemma ofSource_ok (h : ofSource source guard lookahead = .ok stored) :
    (SourcePattern.split source).check lookahead = .ok stored.group ∧
      stored.bytes = encode guard (SourcePattern.split source) ∧
      SourcePattern.startsAnchor stored.group = true ∧
      ∃ rest, (SourcePattern.split source).anchor = stored.group :: rest := by
  rw [ofSource] at h
  cases hcheck : (SourcePattern.split source).check lookahead with
  | error e =>
    rw [hcheck] at h
    cases h
  | ok group =>
    rw [hcheck] at h
    cases h
    obtain ⟨group', hanchor, h⟩ := Outcome.exists_of_bind_eq_ok hcheck
    obtain ⟨_, -, h⟩ := Outcome.exists_of_bind_eq_ok h
    obtain ⟨_, -, h⟩ := Outcome.exists_of_bind_eq_ok h
    cases h
    obtain ⟨rest, hstarts, hbytes, -⟩ := SourcePattern.exists_items_of_checkAnchor hanchor
    exact ⟨rfl, rfl, hstarts, itemBytes rest, hbytes.symm⟩

/-- A byte that an anchor may start with is not taken for a guard. -/
lemma ofByte?_of_startsAnchor {b : UInt8} (h : SourcePattern.startsAnchor b = true) :
    Polarity.ofByte? b = none := by
  simp only [SourcePattern.startsAnchor, Bool.and_eq_true, decide_eq_true_eq, List.mem_cons,
    not_or] at h
  rw [Polarity.ofByte?, if_neg h.2.1, if_neg h.2.2.1]

/-- Behind the guard stand the anchor and the contexts. -/
lemma body_encode (guard : Option Guard) {p : SourcePattern} {b : UInt8} {rest : Bytes}
    (hstarts : SourcePattern.startsAnchor b = true) (hanchor : p.anchor = b :: rest) :
    body (encode guard p) = p.anchor ++ contextBytes p.left p.right := by
  cases guard with
  | none =>
    rw [encode, hanchor]
    simp [body, ofByte?_of_startsAnchor hstarts]
  | some g => simp [encode, Guard.bytes, body]

/-- What stands behind a guard starts with the group; where no phoneme may be asked for, none is. -/
lemma exists_eq_encode (h : (SourcePattern.split source).check lookahead = .ok stored.group) :
    ∃ rest, encode guard (SourcePattern.split source) =
        guard.elim [] Guard.bytes ++ stored.group :: rest ∧
      (lookahead = false → openLookahead ∉ stored.group :: rest) := by
  generalize SourcePattern.split source = p at h
  obtain ⟨left, anchor, right⟩ := p
  obtain ⟨group, hanchor, h⟩ := Outcome.exists_of_bind_eq_ok h
  obtain ⟨_, hleft, h⟩ := Outcome.exists_of_bind_eq_ok h
  obtain ⟨_, hright, h⟩ := Outcome.exists_of_bind_eq_ok h
  cases h
  obtain ⟨rest, -, hbytes, hin⟩ := SourcePattern.exists_items_of_checkAnchor hanchor
  obtain ⟨litems, hlbytes, -, hlin⟩ := SourcePattern.exists_items_of_checkContext hleft
  obtain ⟨ritems, hrbytes, -, hrin⟩ := SourcePattern.exists_items_of_checkContext hright
  have hitems : ∀ items : List Item, (∀ i ∈ items, i.InLeft) → openLookahead ∉ itemBytes items := by
    intro items hall hmem
    obtain ⟨i, hi, hb⟩ := List.mem_flatMap.mp hmem
    exact Item.openLookahead_not_mem_of_inLeft (hall i hi) hb
  refine ⟨itemBytes rest ++ contextBytes left right, ?_, fun hno => ?_⟩
  · rw [encode, ← hbytes]
    rfl
  · have hfirst := hitems _ fun i hi => Item.inLeft_of_inAnchor (hin i hi)
    have hsecond := hlbytes ▸ hitems litems (hlin rfl)
    have hthird := hrbytes ▸ hitems ritems (hrin hno)
    have hcontext : openLookahead ∉ contextBytes left right := by
      have hmarks : openLookahead ≠ leftMark ∧ openLookahead ≠ rightMark := by decide
      cases left <;> cases right <;> simp_all [contextBytes]
    rw [← List.cons_append, List.mem_append]
    exact fun hmem => hmem.elim hfirst hcontext

/-- Storing a pattern adds no bytes but those of its guard and the parentheses. -/
lemma mem_of_mem_encode {b : UInt8} (h : b ∈ encode guard (SourcePattern.split source)) :
    (∃ g ∈ guard, b ∈ g.bytes) ∨ b ∈ source ∨ b = leftMark ∨ b = rightMark := by
  obtain ⟨closing, -, hsource⟩ := SourcePattern.spells_split source
  generalize SourcePattern.split source = p at h hsource
  obtain ⟨left, anchor, right⟩ := p
  subst hsource
  cases guard <;> cases left <;> cases right <;>
    simp only [encode, contextBytes, List.mem_append, List.mem_cons, List.mem_reverse,
      Option.elim_none, Option.elim_some, Option.getD_none, Option.getD_some] at h ⊢ <;>
    grind

end StoredPattern

end LetterToSound
