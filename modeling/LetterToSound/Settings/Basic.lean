import LetterToSound.Settings.FileTree
import LetterToSound.Yaml.Document
import LetterToSound.Yaml.Style

/-!
# Settings

Which locale to use, and which language and voice databases. Settings are kept as a YAML mapping;
a setting that is not in it has its default.
-/

namespace LetterToSound

/-- The names of directories that a system hands to its programs. -/
structure Surroundings where
  home : String
  /-- The directory for data, which counts if it is absolute. -/
  dataHome : Option String
deriving DecidableEq, Repr

namespace Surroundings

/-- Where settings are kept if nothing else is said. -/
def settingsPath (s : Surroundings) : String :=
  Path.join (Path.join s.home ".phonorules") "config.yaml"

/-- Where databases are if nothing else is said. -/
def dataDirectory (s : Surroundings) : String :=
  Path.join
    (match s.dataHome.filter Path.isAbsolute with
      | some directory => directory
      | none => Path.join s.home ".local/share")
    "phonorules"

end Surroundings

structure Settings where
  /-- The locale for which conditionals are evaluated. -/
  locale : String := "en-GB"
  /-- Where databases are. -/
  dataDirectory : Option String := none
  /-- The name of the language database, without its ending. -/
  language : String := "en"
  /-- The name of the voice database, without its ending. -/
  voice : Option String := none
deriving DecidableEq, Repr, Inhabited

namespace Settings

/-- Where databases are. -/
def directory (s : Settings) (surroundings : Surroundings) : String :=
  s.dataDirectory.getD surroundings.dataDirectory

/-- The path of the language database, databases being in `directory`. -/
def languagePath (s : Settings) (directory : String) : String :=
  Path.join (Path.join directory "languages") (s.language ++ ".ldb")

/-- The path of the voice database, if there is a voice. -/
def voicePath (s : Settings) (directory : String) : Option String :=
  s.voice.map fun voice => Path.join (Path.join directory "voices") (voice ++ ".vdb")

/-- The value of a field as `read` takes it; `default` if it is missing, none if it is there twice
or cannot be read. -/
def field {α : Type} (fields : List (String × Yaml.Node)) (name : String)
    (read : Yaml.Node → Option α) (default : α) : Option α :=
  match fields.filter (·.1 = name) with
  | [] => some default
  | [(_, node)] => read node
  | _ => none

/-- The settings that a YAML value says; none if it says none. Fields of other names do not
count. -/
def ofNode? (node : Yaml.Node) : Option Settings := do
  let fields ← node.fields?
  let unset : Settings := {}
  return {
    locale := ← field fields "locale" Yaml.Node.text? unset.locale
    dataDirectory := ← field fields "data_dir" Yaml.Node.optional? unset.dataDirectory
    language := ← field fields "language" Yaml.Node.text? unset.language
    voice := ← field fields "voice" Yaml.Node.optional? unset.voice }

/-- Reads settings. -/
def read (text : String) : Option Settings := (Yaml.read text).bind ofNode?

/-- Writes settings. -/
def write (s : Settings) : String :=
  Yaml.writeEntry "locale" (Yaml.writeText s.locale) ++
    Yaml.writeEntry "data_dir" (Yaml.writeOptional s.dataDirectory) ++
    Yaml.writeEntry "language" (Yaml.writeText s.language) ++
    Yaml.writeEntry "voice" (Yaml.writeOptional s.voice)

end Settings

end LetterToSound
