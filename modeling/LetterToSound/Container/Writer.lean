import Std.Data.HashMap
import LetterToSound.Container.Section
import LetterToSound.Number.Single
import LetterToSound.Text.Bytes

/-!
# Writing sections with pooled strings

The writer only appends. The size of a section is known when the section is begun, so the place of
a string that the section refers to is known before the string is written: strings stand behind the
section, in the order of their first use and each only once. A step that fails leaves behind what
it has done before it failed.
-/

namespace LetterToSound

/-- Where bytes go: everything, or as much as a limit allows. -/
structure Sink where
  limit : Option Nat
  received : Array UInt8
deriving Inhabited

namespace Sink

def empty (limit : Option Nat) : Sink := ⟨limit, #[]⟩

/-- Whether bytes would go beyond the limit. No bytes never do. -/
def refuses (s : Sink) (bytes : Bytes) : Bool :=
  match s.limit with
  | some limit => !bytes.isEmpty && decide (limit < s.received.size + bytes.length)
  | none => false

def append (s : Sink) (bytes : Bytes) : Sink := { s with received := s.received ++ bytes }

end Sink

/-- Why a step of the writer fails. -/
inductive WriteError where
  /-- A section ends at another offset than its size says. -/
  | sizeMismatch (written expected : Nat)
  /-- A string is referred to in a section that is begun without strings. -/
  | noStringTable
  /-- An offset does not fit in 32 bits. -/
  | offsetOverflow
  /-- The sink takes no more. -/
  | refused
deriving DecidableEq, Repr

namespace WriteError

def message : WriteError → String
  | sizeMismatch written expected =>
    s!"section size mismatch: wrote {written} bytes, expected {expected}"
  | noStringTable => "pooled string written in a section without a string table"
  | offsetOverflow => "database exceeds the 4 GiB offset range"
  | refused => "output limit reached"

end WriteError

structure Writer where
  sink : Sink
  /-- Where the next new string will stand. -/
  offset : Nat
  /-- Whether the section has a string table. -/
  pooling : Bool
  /-- The strings of the table, the last one first. -/
  pool : List Bytes
  /-- Where the strings of the table will stand. -/
  places : Std.HashMap Bytes Nat

/-- A step of the writer. The state is kept when the step fails. -/
abbrev Write (α : Type) := ExceptT WriteError (StateM Writer) α

namespace Writer

def empty (limit : Option Nat) : Writer := ⟨Sink.empty limit, 0, false, [], ∅⟩

/-- How many bytes have been written. -/
def written (w : Writer) : Nat := w.sink.received.size

/-- Hands bytes to the sink, which takes them all together or not at all. -/
def put (bytes : Bytes) : Write Unit := fun w =>
  if w.sink.refuses bytes then (.error .refused, w)
  else (.ok (), { w with sink := w.sink.append bytes })

/-- Moves the offset of the next string. -/
def reserve (size : Nat) : Write Unit := fun w =>
  if UInt32.size ≤ w.offset + size then (.error .offsetOverflow, w)
  else (.ok (), { w with offset := w.offset + size })

def putU8 (v : UInt8) : Write Unit := put [v]
def putU16 (v : UInt16) : Write Unit := put (LittleEndian.encode 2 v.toNat)
def putU32 (v : UInt32) : Write Unit := put (LittleEndian.encode 4 v.toNat)
def putU64 (v : UInt64) : Write Unit := put (LittleEndian.encode 8 v.toNat)
def putSingle (v : Single) : Write Unit := putU32 v.bits

/-- Writes a number in 8.8 fixed point, byte by byte. -/
def putFixed (v : Single) : Write Unit := do
  putU8 (FixedPoint.encode v).1
  putU8 (FixedPoint.encode v).2

/-- Writes a string and the zero byte behind it. -/
def putString (s : Bytes) : Write Unit := do
  put s
  putU8 0

def putStrings : List Bytes → Write Unit
  | [] => pure ()
  | s :: rest => do
    putString s
    putStrings rest

/-- Begins a section of `size` bytes, the magic among them. -/
def beginSection (magic : Bytes) (size : UInt32) (pooling : Bool) : Write Unit := do
  reserve size.toNat
  if pooling then reserve Layout.stringTableHeaderSize
  modify fun w => { w with pooling }
  put magic

/-- Enters a new string into the table; the result is its place. -/
def enter (s : Bytes) : Write Nat := fun w =>
  if UInt32.size ≤ w.offset + (s.length + 1) then (.error .offsetOverflow, w)
  else
    let place := w.offset
    (.ok place,
      { w with
        offset := place + (s.length + 1)
        pool := s :: w.pool
        places := w.places.insert s place })

/-- Writes a reference to a string of the section's table, which is entered there at its first use;
the result is its place. -/
def putReference (s : Bytes) : Write Nat := do
  match (← get).places[s]? with
  | some place =>
    putU32 (UInt32.ofNat place)
    return place
  | none =>
    if !(← get).pooling then throw .noStringTable
    let place ← enter s
    putU32 (UInt32.ofNat place)
    return place

/-- Takes the strings that are still to be written. -/
def takePool : Write (List Bytes) := fun w => (.ok w.pool.reverse, { w with pool := [] })

/-- Writes the string table of a section. -/
def putPool : Write Unit := do
  put SectionTag.strings.bytes
  putU32 (UInt32.ofNat (← get).offset)
  putStrings (← takePool)
  modify fun w => { w with places := ∅, pooling := false }

/-- Compares what has been written with what the sizes of the sections say. -/
def checkSize : Write Unit := fun w =>
  if w.written = w.offset then (.ok (), w) else (.error (.sizeMismatch w.written w.offset), w)

/-- Ends a section. -/
def endSection : Write Unit := do
  if (← get).pooling then putPool
  checkSize

end Writer

/-- A value as sections hold it. -/
inductive Datum where
  | u8 (v : UInt8)
  | u16 (v : UInt16)
  | u32 (v : UInt32)
  | u64 (v : UInt64)
  | single (v : Single)
  /-- A number in 8.8 fixed point. -/
  | fixed (v : Single)
  /-- A string in its place, with a zero byte behind it. -/
  | inline (s : Bytes)
  /-- A reference to a string of the section's table. -/
  | pooled (s : Bytes)
deriving DecidableEq, Repr

namespace Datum

/-- Writes a value; the result is the place of a pooled string. -/
def write : Datum → Write (Option Nat)
  | u8 v => do Writer.putU8 v; return none
  | u16 v => do Writer.putU16 v; return none
  | u32 v => do Writer.putU32 v; return none
  | u64 v => do Writer.putU64 v; return none
  | single v => do Writer.putSingle v; return none
  | fixed v => do Writer.putFixed v; return none
  | inline s => do Writer.putString s; return none
  | pooled s => do return some (← Writer.putReference s)

/-- The bytes that a value takes in its section. -/
def size : Datum → Nat
  | u8 _ => 1
  | u16 _ => 2
  | u32 _ => 4
  | u64 _ => 8
  | single _ => 4
  | fixed _ => 2
  | inline s => s.length + 1
  | pooled _ => Layout.stringReferenceSize

end Datum

end LetterToSound
