import LetterToSound.Language.Image
import LetterToSound.Language.Parser
import LetterToSound.Voice.Image
import LetterToSound.Voice.Parser

/-!
# From a source to a database

A source is read into a definition, and the definition is written as sections. Nothing is written
before the whole source has been read.
-/

namespace LetterToSound

/-- Writes sections into an empty sink: how it went, and what the sink has received. -/
def assemble (limit : Option Nat) (image : List SectionPlan) :
    Except CompileError Unit × Array UInt8 :=
  match Writer.run limit image with
  | (.ok (), data) => (.ok (), data)
  | (.error cause, data) => (.error (CompileError.ofEmit cause), data)

/-- The database that sections make. -/
def database (image : List SectionPlan) : Except CompileError (Array UInt8) :=
  match assemble none image with
  | (.ok (), data) => .ok data
  | (.error e, _) => .error e

namespace Language

/-- Writes the database of a definition into a sink that may have a limit. -/
def Definition.write (limit : Option Nat) (d : Definition) :
    Except CompileError Unit × Array UInt8 :=
  assemble limit d.image

/-- Compiles a language source. -/
def compile (source : Bytes) : Except CompileError (Array UInt8) := do
  database (← parse source).image

end Language

namespace Voice

/-- Writes the database of a definition into a sink that may have a limit. -/
def Definition.write (limit : Option Nat) (d : Definition) :
    Except CompileError Unit × Array UInt8 :=
  assemble limit d.image

/-- Compiles a voice source. -/
def compile (source : Bytes) : Except CompileError (Array UInt8) := do
  database (← parse source).image

end Voice

end LetterToSound
