import LetterToSound.Compile
import LetterToSound.Language.Database
import LetterToSound.Settings.Basic
import LetterToSound.Settings.FileTree
import LetterToSound.Voice.Database

/-!
# Settings, sources and databases in files

What is read from files and written to them. A database is written only after it has been made
completely, so a source that cannot be compiled leaves the old file as it is.
-/

namespace LetterToSound

/-- Why a file cannot be opened as a database. -/
inductive OpenError where
  | file (cause : FileError)
  | load (cause : LoadError)
deriving DecidableEq, Repr

/-- Why a file cannot be compiled. -/
inductive FileCompileError where
  | file (cause : FileError)
  | compile (cause : CompileError)
deriving DecidableEq, Repr

/-- Why settings cannot be used. -/
inductive SettingsError where
  | file (cause : FileError)
  /-- A settings file that is not UTF-8. -/
  | notText
  /-- A settings file that does not say settings. -/
  | malformed
  | database (path : String) (cause : OpenError)
  | noVoice
deriving DecidableEq, Repr

namespace SettingsError

/-- The text for settings without a voice. -/
def noVoiceMessage : String := "no voice configured"

end SettingsError

namespace FileTree

/-- Opens a file as a database of a kind. -/
def openWith {α : Type} (t : FileTree) (load : Array UInt8 → Except LoadError α) (path : String) :
    Except OpenError α :=
  match t.read path with
  | .error cause => .error (.file cause)
  | .ok data =>
    match load data with
    | .error cause => .error (.load cause)
    | .ok db => .ok db

def openLanguage (t : FileTree) (path : String) : Except OpenError Language.Database :=
  t.openWith Language.Database.load path

def openVoice (t : FileTree) (path : String) : Except OpenError Voice.Database :=
  t.openWith Voice.Database.load path

/-- Compiles a file into another one. -/
def compileWith (t : FileTree) (compile : Bytes → Except CompileError (Array UInt8))
    (source output : String) : Except FileCompileError FileTree :=
  match t.read source with
  | .error cause => .error (.file cause)
  | .ok text =>
    match compile text.toList with
    | .error cause => .error (.compile cause)
    | .ok data =>
      match t.write output data with
      | .error cause => .error (.file cause)
      | .ok t => .ok t

def compileLanguage (t : FileTree) (source output : String) : Except FileCompileError FileTree :=
  t.compileWith Language.compile source output

def compileVoice (t : FileTree) (source output : String) : Except FileCompileError FileTree :=
  t.compileWith Voice.compile source output

/-- Reads a settings file. Where there is none, everything has its default. -/
def loadSettings (t : FileTree) (path : String) : Except SettingsError Settings :=
  if !t.holds path then .ok {}
  else
    match t.read path with
    | .error cause => .error (.file cause)
    | .ok data =>
      match Bytes.toString? data.toList with
      | none => .error .notText
      | some text =>
        match Settings.read text with
        | none => .error .malformed
        | some settings => .ok settings

/-- Writes a settings file, and makes the directories that it is in. The tree is the one that is
left, whether or not the file could be written. -/
def saveSettings (t : FileTree) (path : String) (settings : Settings) :
    Except SettingsError Unit × FileTree :=
  match t.makeDirectory (Path.parent path) with
  | (.error cause, t) => (.error (.file cause), t)
  | (.ok (), t) =>
    match t.write path (Bytes.ofString settings.write).toArray with
    | .error cause => (.error (.file cause), t)
    | .ok t => (.ok (), t)

/-- Opens the language database that settings name, databases being in `directory`. -/
def loadLanguage (t : FileTree) (settings : Settings) (directory : String) :
    Except SettingsError Language.Database :=
  let path := settings.languagePath directory
  match t.openLanguage path with
  | .error cause => .error (.database path cause)
  | .ok db => .ok db

/-- Opens the voice database that settings name, databases being in `directory`. -/
def loadVoice (t : FileTree) (settings : Settings) (directory : String) :
    Except SettingsError Voice.Database :=
  match settings.voicePath directory with
  | none => .error .noVoice
  | some path =>
    match t.openVoice path with
    | .error cause => .error (.database path cause)
    | .ok db => .ok db

end FileTree

end LetterToSound
