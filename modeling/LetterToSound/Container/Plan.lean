import LetterToSound.Container.Writer

/-!
# Plans of databases

What is to be written is first a list of sections with all their values. Writing a plan is then the
same for every kind of database.
-/

namespace LetterToSound

/-- What a field for a count cannot say. -/
inductive Excess where
  /-- More than 65535 entries in a section. -/
  | entries (tag : SectionTag)
  /-- More than 255 units for one phoneme. -/
  | units
deriving DecidableEq, Repr

namespace Excess

def message : Excess → String
  | entries tag => s!"too many entries in a {tag.name} section"
  | units => "too many units for one phoneme"

end Excess

/-- A section with its values. Where there is an excess, the section goes no further than its
values. -/
structure SectionPlan where
  magic : Bytes
  size : UInt32
  pooling : Bool
  body : List Datum
  excess : Option Excess
deriving DecidableEq, Repr

namespace SectionPlan

/-- A section of `count` entries. The count stands in front of the other values, in 16 bits. -/
def counted (tag : SectionTag) (size : UInt32) (pooling : Bool) (count : Nat)
    (values : List Datum) : SectionPlan :=
  if count < UInt16.size then ⟨tag.bytes, size, pooling, .u16 (UInt16.ofNat count) :: values, none⟩
  else ⟨tag.bytes, size, pooling, [], some (.entries tag)⟩

end SectionPlan

/-- Why a database cannot be written. -/
inductive EmitError where
  | write (cause : WriteError)
  | excess (cause : Excess)
deriving DecidableEq, Repr

namespace Writer

def putAll : List Datum → Write Unit
  | [] => pure ()
  | d :: rest => do
    discard d.write
    putAll rest

/-- Writes one section. -/
def putSection (plan : SectionPlan) : Write (Option Excess) := do
  beginSection plan.magic plan.size plan.pooling
  putAll plan.body
  if plan.excess.isNone then endSection
  return plan.excess

/-- Writes sections in order, up to the first that fails. -/
def emit : List SectionPlan → Writer → Except EmitError Unit × Writer
  | [], w => (.ok (), w)
  | plan :: rest, w =>
    match putSection plan w with
    | (.error cause, w) => (.error (.write cause), w)
    | (.ok (some excess), w) => (.error (.excess excess), w)
    | (.ok none, w) => emit rest w

/-- Writes sections into an empty sink: how it went, and what the sink has received. -/
def run (limit : Option Nat) (plans : List SectionPlan) : Except EmitError Unit × Array UInt8 :=
  let (result, w) := emit plans (empty limit)
  (result, w.sink.received)

end Writer

end LetterToSound
