import StackLift.Code.Format
import StackLift.Json.Reader

/-!
# Modules

A module is a named list of methods together with the version of the file format.
Module files are JSON texts in UTF-8. Reading what was written gives the module
back.
-/

namespace StackLift

/-- A named, versioned list of methods. -/
structure CodeModule where
  name : String
  version : UInt32
  methods : List Method
  deriving DecidableEq, Repr

/-- Why a module cannot be loaded. -/
inductive LoadError where
  /-- The file is missing or holds no text. -/
  | unreadable
  | malformed
  | unsupportedVersion (version : UInt32)
  deriving DecidableEq, Repr

def LoadError.message : LoadError → String
  | .unreadable => "IO error"
  | .malformed => "JSON error"
  | .unsupportedVersion version => "Unsupported version: " ++ Nat.repr version.toNat

namespace CodeModule

/-- The version of the format that is read and written. -/
def currentVersion : UInt32 := 1

def isCurrent (code : CodeModule) : Bool :=
  code.version == currentVersion

/-- The first method with a name. -/
def method? (code : CodeModule) (name : String) : Option Method :=
  code.methods.find? fun method => method.name == name

def toJson (code : CodeModule) : Json :=
  .object
    [("name", .string code.name), ("version", .int code.version.toNat),
      ("methods", .array (code.methods.map Method.toJson))]

/-- Only the name has to be given. -/
def ofJson? (json : Json) : Option CodeModule :=
  match json.fields? ["name", "version", "methods"] with
  | some [some name, version, methods] => do
    let name ← name.string?
    let version ← version.elim (some currentVersion) Json.uint32?
    let items ← methods.elim (some []) Json.items?
    let methods ← items.mapM Method.ofJson?
    pure { name, version, methods }
  | _ => none

@[simp]
theorem ofJson?_toJson (code : CodeModule) : ofJson? code.toJson = some code := by
  simp [ofJson?, toJson, Json.fields?, Json.string?, Json.items?, Method.mapM_ofJson?_toJson,
    -List.mapM_map]

def render (code : CodeModule) : String :=
  code.toJson.pretty

/-- Reads the text of a module file. The version is looked at last, so that a text
that is no module at all is reported as such. -/
def parse (text : String) : Except LoadError CodeModule :=
  match (Json.parse? text).bind ofJson? with
  | some code =>
    if code.isCurrent then .ok code else .error (.unsupportedVersion code.version)
  | none => .error .malformed

def toBytes (code : CodeModule) : ByteArray :=
  code.render.toUTF8

def ofBytes (bytes : ByteArray) : Except LoadError CodeModule :=
  match String.fromUTF8? bytes with
  | some text => parse text
  | none => .error .unreadable

end CodeModule

end StackLift
