import LetterToSound.Container.Section
import LetterToSound.Number.Single
import LetterToSound.Text.Bytes

/-!
# Reading a database

A cursor stands at an offset of a database and reads values from there on. A value that fails to be
read may have moved the cursor over the parts of it that could be read.
-/

/-!
## What is wrong with a database
-/

namespace LetterToSound

/-- Why a database cannot be loaded. -/
inductive LoadError where
  | badMagic (expected : String)
  /-- The byte order witness is another number. -/
  | foreignByteOrder (witness : UInt16)
  | unknownSection (tag : Bytes)
  | unsupportedSection (tag : SectionTag) (database : String)
  | malformedEntry (table : String) (offset : Nat)
  | unexpectedEnd (offset : Nat)
  | badStringOffset (offset : Nat)
  | invalidUtf8
  | unknownAlphabet (name : String)
deriving DecidableEq, Repr

namespace LoadError

/-- Four hexadecimal digits. -/
def hex4 (n : Nat) : String :=
  String.ofList ((List.range 4).map fun i => Nat.digitChar (n >>> (4 * (3 - i)) % 16))

def message : LoadError → String
  | badMagic expected => s!"not a {expected} file"
  | foreignByteOrder witness => s!"incompatible byte order (witness 0x{hex4 witness.toNat})"
  | unknownSection tag => s!"unknown section '{Utf8.lossy tag}'"
  | unsupportedSection tag database =>
    s!"section '{tag.name}' is not supported in a {database} file"
  | malformedEntry table offset => s!"malformed {table} entry at offset {offset}"
  | unexpectedEnd offset => s!"unexpected end of data at offset {offset}"
  | badStringOffset offset => s!"string offset {offset} is outside the database"
  | invalidUtf8 => "invalid UTF-8 in header field"
  | unknownAlphabet name => s!"unknown phoneme set '{name}'"

end LoadError

/-!
## Cursors and readers
-/

structure Cursor where
  data : Array UInt8
  position : Nat
deriving Inhabited

/-- A step of reading. The position is kept when the step fails. -/
abbrev Read (α : Type) := ExceptT LoadError (StateM Cursor) α

namespace Cursor

/-- The offset of the first zero byte from `i` on. -/
def zeroFrom? (data : Array UInt8) (i : Nat) : Option Nat :=
  if h : i < data.size then if data[i] = 0 then some i else zeroFrom? data (i + 1) else none
termination_by data.size - i

/-- The string at an offset, up to the zero byte behind it. -/
def string? (data : Array UInt8) (offset : Nat) : Option Bytes :=
  (zeroFrom? data offset).map fun stop => (data.extract offset stop).toList

/-- The 32-bit number at an offset. -/
def word? (data : Array UInt8) (offset : Nat) : Option Nat :=
  if offset + 4 ≤ data.size then
    some (LittleEndian.decode (data.extract offset (offset + 4)).toList)
  else none

def start (data : Array UInt8) : Cursor := ⟨data, 0⟩

def atEnd (c : Cursor) : Bool := c.data.size ≤ c.position

end Cursor

namespace Read

def position : Read Nat := fun c => (.ok c.position, c)

def seek (offset : Nat) : Read Unit := fun c => (.ok (), { c with position := offset })

/-- Takes bytes; if there are not as many, none of them. -/
def bytes (count : Nat) : Read Bytes := fun c =>
  if c.position + count ≤ c.data.size then
    (.ok (c.data.extract c.position (c.position + count)).toList,
      { c with position := c.position + count })
  else (.error (.unexpectedEnd c.position), c)

/-- A number of `width` bytes. -/
def number (width : Nat) : Read Nat := do return LittleEndian.decode (← bytes width)

def u8 : Read UInt8 := do return UInt8.ofNat (← number 1)
def u16 : Read UInt16 := do return UInt16.ofNat (← number 2)
def u32 : Read UInt32 := do return UInt32.ofNat (← number 4)
def u64 : Read UInt64 := do return UInt64.ofNat (← number 8)
def single : Read Single := do return ⟨← u32⟩

/-- A number in 8.8 fixed point. -/
def fixed : Read Single := do
  let whole ← u8
  let fraction ← u8
  return FixedPoint.decode whole fraction

/-- The string at an offset. -/
def stringAt (offset : Nat) : Read Bytes := fun c =>
  match Cursor.string? c.data offset with
  | some s => (.ok s, c)
  | none => (.error (.badStringOffset offset), c)

/-- The string that a reference stands for. -/
def reference : Read Bytes := do stringAt (← u32).toNat

/-- What is already known to have gone well or wrong. -/
def lift {α : Type} (result : Except LoadError α) : Read α := fun c => (result, c)

/-- Bytes as text. -/
def utf8 (b : Bytes) : Read String :=
  lift (match Bytes.toString? b with
    | some s => .ok s
    | none => .error .invalidUtf8)

/-- The text that a reference stands for. -/
def text : Read String := do utf8 (← reference)

/-- The section that a tag names. -/
def tagOf (b : Bytes) : Except LoadError SectionTag :=
  match SectionTag.ofBytes? b with
  | some tag => .ok tag
  | none => .error (.unknownSection b)

/-- The tag of a section. -/
def tag : Read SectionTag := do lift (tagOf (← bytes 3))

/-- Bytes that have to be there, or the data is no database of that name. -/
def magic (expected : Bytes) (name : String) : Read Unit := fun c =>
  match bytes expected.length c with
  | (.ok found, c) => if found = expected then (.ok (), c) else (.error (.badMagic name), c)
  | (.error _, c) => (.error (.badMagic name), c)

/-- The header of a database: its magic and the byte order witness. -/
def header (expected : Bytes) (name : String) : Read Unit := do
  magic expected name
  let witness ← u16
  if witness ≠ Layout.byteOrderWitness then throw (.foreignByteOrder witness)

/-- Repeats a step, the results before in reverse order. -/
def timesOnto {α : Type} (step : Read α) (done : List α) : Nat → Read (List α)
  | 0 => pure done.reverse
  | n + 1 => do
    let a ← step
    timesOnto step (a :: done) n

/-- Repeats a step. -/
def times {α : Type} (n : Nat) (step : Read α) : Read (List α) := timesOnto step [] n

/-- Goes on behind the strings of a string table, its tag being read. The offset that the table
names may lead neither back nor out of the data. -/
def skipStrings : Read Unit := fun c =>
  match u32 c with
  | (.error e, c) => (.error e, c)
  | (.ok stop, c) =>
    if stop.toNat < c.position ∨ c.data.size < stop.toNat then
      (.error (.unexpectedEnd c.position), c)
    else (.ok (), { c with position := stop.toNat })

theorem bind_apply {α β : Type} (x : Read α) (f : α → Read β) (c : Cursor) :
    (x >>= f) c = match x c with
      | (.ok a, c') => f a c'
      | (.error e, c') => (.error e, c') := by
  change ExceptT.bindCont f (x c).1 (x c).2 = _
  cases x c with
  | mk result c' => cases result <;> rfl

/-- A step that, when it succeeds, leaves the data as it is, does not go back and does not leave the
data. -/
def Forward {α : Type} (r : Read α) : Prop :=
  ∀ c a c', r c = (.ok a, c') →
    c'.data = c.data ∧ c.position ≤ c'.position ∧
      (c.position ≤ c.data.size → c'.position ≤ c.data.size)

namespace Forward

variable {α β : Type}

theorem pure (a : α) : Forward (Pure.pure a : Read α) := by
  intro c b c' h
  cases h
  exact ⟨rfl, Nat.le_refl _, id⟩

theorem throw (e : LoadError) : Forward (MonadExcept.throw e : Read α) := by
  intro c b c' h
  cases h

theorem lift (result : Except LoadError α) : Forward (Read.lift result) := by
  intro c b c' h
  cases h
  exact ⟨rfl, Nat.le_refl _, id⟩

theorem bind {x : Read α} {f : α → Read β} (hx : Forward x) (hf : ∀ a, Forward (f a)) :
    Forward (x >>= f) := by
  intro c b c' h
  rw [bind_apply] at h
  split at h
  · rename_i a middle hxc
    obtain ⟨hdata, hle, hin⟩ := hx c a middle hxc
    obtain ⟨hdata', hle', hin'⟩ := hf a middle b c' h
    rw [hdata] at hdata' hin'
    exact ⟨hdata', Nat.le_trans hle hle', fun hc => hin' (hin hc)⟩
  · cases h

theorem bytes (count : Nat) : Forward (Read.bytes count) := by
  intro c b c' h
  unfold Read.bytes at h
  split at h
  · rename_i hfits
    cases h
    exact ⟨rfl, Nat.le_add_right _ _, fun _ => hfits⟩
  · cases h

theorem position : Forward Read.position := by
  intro c b c' h
  cases h
  exact ⟨rfl, Nat.le_refl _, id⟩

theorem number (width : Nat) : Forward (Read.number width) := (bytes width).bind fun _ => pure _
theorem u8 : Forward Read.u8 := (number 1).bind fun _ => pure _
theorem u16 : Forward Read.u16 := (number 2).bind fun _ => pure _
theorem u32 : Forward Read.u32 := (number 4).bind fun _ => pure _
theorem u64 : Forward Read.u64 := (number 8).bind fun _ => pure _
theorem single : Forward Read.single := u32.bind fun _ => pure _

theorem stringAt (offset : Nat) : Forward (Read.stringAt offset) := by
  intro c b c' h
  unfold Read.stringAt at h
  split at h <;> cases h
  exact ⟨rfl, Nat.le_refl _, id⟩

theorem fixed : Forward Read.fixed := u8.bind fun _ => u8.bind fun _ => pure _

theorem reference : Forward Read.reference := u32.bind fun _ => stringAt _

theorem utf8 (b : Bytes) : Forward (Read.utf8 b) := lift _

theorem text : Forward Read.text := reference.bind utf8

theorem timesOnto {step : Read α} (h : Forward step) (done : List α) (n : Nat) :
    Forward (Read.timesOnto step done n) := by
  induction n generalizing done with
  | zero => exact pure _
  | succ n ih => exact h.bind fun a => ih (a :: done)

theorem times {step : Read α} (h : Forward step) (n : Nat) : Forward (Read.times n step) :=
  h.timesOnto [] n

theorem discard {x : Read α} (h : Forward x) : Forward (Functor.discard x) := h.bind fun _ => pure _

theorem skipStrings : Forward Read.skipStrings := by
  intro c b c' h
  unfold Read.skipStrings at h
  split at h
  · cases h
  · rename_i stop middle hstop
    obtain ⟨hdata, hle, _⟩ := u32 c stop middle hstop
    split at h
    · cases h
    · rename_i hstop
      cases h
      refine ⟨hdata, ?_, fun _ => ?_⟩
      · simp only
        omega
      · rw [← hdata]
        simp only
        omega

end Forward

/-- A tag takes three bytes. -/
theorem position_tag {c c' : Cursor} {t : SectionTag} (h : tag c = (.ok t, c')) :
    c'.data = c.data ∧ c'.position = c.position + 3 ∧ c'.position ≤ c.data.size := by
  rw [tag, bind_apply] at h
  unfold bytes at h
  split at h
  · rename_i b middle hbytes
    split at hbytes
    · rename_i hfits
      cases hbytes
      obtain ⟨_, rfl⟩ := Prod.mk.inj h
      exact ⟨rfl, rfl, hfits⟩
    · cases hbytes
  · cases h

end Read

end LetterToSound

/-!
## Going through the sections

Every kind of database is read section by section up to the end of its data. What stands behind a
tag is the concern of the kind; that reading it does not go back is all that the walk needs in order
to end.
-/

namespace LetterToSound.Walk

variable {α : Type} {body : SectionTag → Read α}

/-- One section with its tag. -/
def readSection (body : SectionTag → Read α) : Read α := do body (← Read.tag)

/-- Reading a section moves the cursor on, and not out of the data. -/
theorem position_readSection (forward : ∀ tag, (body tag).Forward) {c c' : Cursor} {a : α}
    (h : readSection body c = (.ok a, c')) :
    c'.data = c.data ∧ c.position < c'.position ∧ c'.position ≤ c.data.size := by
  rw [readSection, Read.bind_apply] at h
  split at h
  · rename_i tag middle htag
    obtain ⟨hdata, hposition, hin⟩ := Read.position_tag htag
    obtain ⟨hdata', hle, hin'⟩ := forward tag middle a c' h
    rw [hdata] at hdata' hin'
    exact ⟨hdata', by omega, hin' hin⟩
  · cases h

/-- Reads sections to the end of the data, those read before in reverse order. -/
def sectionsOnto (body : SectionTag → Read α) (forward : ∀ tag, (body tag).Forward)
    (done : List α) (c : Cursor) : Except LoadError (List α) :=
  if _hend : c.data.size ≤ c.position then .ok done.reverse
  else match _h : readSection body c with
    | (.error e, _) => .error e
    | (.ok a, c') => sectionsOnto body forward (a :: done) c'
termination_by c.data.size - c.position
decreasing_by
  obtain ⟨hdata, hlt, _⟩ := position_readSection forward _h
  rw [hdata]
  omega

/-- The sections from the cursor on. -/
def sections (body : SectionTag → Read α) (forward : ∀ tag, (body tag).Forward) (c : Cursor) :
    Except LoadError (List α) :=
  sectionsOnto body forward [] c

end LetterToSound.Walk
