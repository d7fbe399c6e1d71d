import StackLift.Toml.Document

/-!
# Settings

Settings are read from the file that the command line names, or else from the
nearest settings file in the working directory or one of the directories around
it. Keys that are not settings are skipped.
-/

namespace StackLift.Command

inductive OutputFormat where
  | text
  | json
  deriving DecidableEq, Repr

def OutputFormat.ofName? : String → Option OutputFormat
  | "text" => some .text
  | "json" => some .json
  | _ => none

/-- What a settings file may choose. -/
structure Settings where
  failFast : Bool := false
  format : OutputFormat := .text
  deriving DecidableEq, Repr

namespace Settings

open StackLift.Toml

def failFast? (document : Document) : Option Bool :=
  match document.node? ["translate", "fail_fast"] with
  | none => some false
  | some (.value (.bool value)) => some value
  | some _ => none

/-- The format of the output. Its name is a string, or the name of the one member of
a table, and that member is a table without members. -/
def format? (document : Document) : Option OutputFormat :=
  let path := ["output", "format"]
  match document.node? path with
  | none => some .text
  | some (.value (.string name)) => OutputFormat.ofName? name
  | some (.value _) => none
  | some (.table _) =>
    match document.members path with
    | [(name, .table _)] =>
      if (document.members (path ++ [name])).isEmpty then OutputFormat.ofName? name else none
    | _ => none

def admitsTable (document : Document) (path : Path) : Bool :=
  match document.node? path with
  | some (.value _) => false
  | _ => true

/-- The settings of a document. The two tables must not be values. -/
def ofDocument? (document : Document) : Option Settings :=
  if admitsTable document ["translate"] && admitsTable document ["output"] then do
    let failFast ← failFast? document
    let format ← format? document
    pure { failFast, format }
  else none

def parse? (text : String) : Option Settings :=
  (Toml.parse? text).bind ofDocument?

end Settings

/-- The names of settings files, the first being looked for first. -/
def settingsNames : List String := ["il2c.toml", ".il2crc.toml"]

def directoryText (names : List String) : String :=
  "/" ++ String.join (names.map fun name => name ++ "/")

/-- A directory and those around it, innermost first, each as the names that lead to
it. -/
def directoriesAround (names : List String) : List (List String) :=
  (List.range (names.length + 1)).reverse.map names.take

/-- The settings files that count in a working directory, the nearest first. -/
def settingsCandidates (directory : String) : List String :=
  let names := (directory.splitOn "/").filter fun name => !name.isEmpty
  (directoriesAround names).flatMap fun around =>
    settingsNames.map fun name => directoryText around ++ name

end StackLift.Command
