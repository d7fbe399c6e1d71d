import StackLift.Command.Arguments
import StackLift.Command.Settings
import StackLift.Lift.Report

/-!
# Running a command

A command reads settings and a module file, and prints a report. How files are
read is left open. The text of the help is left out: a request for help succeeds
and prints nothing here.
-/

namespace StackLift

namespace Listing

def padRight (width : Nat) (text : String) : String :=
  text ++ String.ofList (List.replicate (width - text.length) ' ')

/-- An instruction with a star if it is a label, and with the start of its block. -/
def blockLine (listing : Listing) (instruction : Instruction) : String :=
  let address := instruction.address
  "  " ++ (if listing.isLabel address then "*" else " ") ++ " " ++
    padRight 32 instruction.text ++ " block " ++
    ((listing.blockStart? address).elim "-" Address.text) ++ "\n"

def blocksText (listing : Listing) (name : String) : String :=
  "method " ++ name ++ "\n" ++
    String.join (listing.instructions.toList.map listing.blockLine) ++ "\n"

end Listing

namespace Command

/-- Why a command fails. -/
inductive Failure where
  | settingsMissing (path : String)
  | settingsMalformed (path : String)
  | load (path : String) (error : LoadError)
  | invalidMethod (name : String) (fault : Fault)
  | methodsFailed (failed attempted : Nat)
  deriving DecidableEq, Repr

namespace Failure

def message : Failure → String
  | .settingsMissing path => "Config file not found: " ++ path
  | .settingsMalformed path => "Failed to parse " ++ path
  | .load path _ => "Failed to load " ++ path
  | .invalidMethod name _ => "Invalid method " ++ name
  | .methodsFailed failed attempted =>
    Nat.repr failed ++ " of " ++ Nat.repr attempted ++ " methods failed to translate"

def cause? : Failure → Option String
  | .load _ error => some error.message
  | .invalidMethod _ fault => some fault.message
  | .settingsMissing _ | .settingsMalformed _ | .methodsFailed _ _ => none

end Failure

/-- What a command leaves behind. -/
structure Outcome where
  exitCode : UInt32
  output : String
  failure : Option Failure
  deriving DecidableEq, Repr

namespace Outcome

def success (output : String) : Outcome := ⟨0, output, none⟩

/-- The command failed after it had printed something. -/
def failed (output : String) (failure : Failure) : Outcome := ⟨1, output, some failure⟩

def usage : Outcome := ⟨2, "", none⟩

end Outcome

def versionText : String := "il2c 0.1.0\n"

def printReport (settings : Settings) (json failFast : Bool) (code : CodeModule) : Outcome :=
  let report := code.lift (settings.failFast || failFast)
  let format := if json then .json else settings.format
  let output :=
    match format with
    | .text => report.text
    | .json => report.toJson.pretty ++ "\n"
  if report.isSuccess then .success output
  else .failed output (.methodsFailed report.failures.length report.outcomes.length)

/-- Prints the blocks of methods, up to the first that breaks its contract, after
what was printed before. -/
def printBlocks (output : String) : List Method → Outcome
  | [] => .success output
  | method :: rest =>
    match Listing.ofMethod method with
    | .ok listing => printBlocks (output ++ listing.blocksText method.displayName) rest
    | .error fault => .failed output (.invalidMethod method.displayName fault)

def perform (settings : Settings) (task : Task) (code : CodeModule) : Outcome :=
  match task with
  | .lift json failFast => printReport settings json failFast code
  | .blocks => printBlocks "" code.methods

section Files

variable {m : Type → Type} [Monad m] (read : String → m (Option String))

/-- The first of the given files that can be read, with its content. -/
def firstReadable : List String → m (Option (String × String))
  | [] => pure none
  | path :: rest => do
    match ← read path with
    | some content => pure (some (path, content))
    | none => firstReadable rest

def settingsOf (path content : String) : Except Failure Settings :=
  match Settings.parse? content with
  | some settings => .ok settings
  | none => .error (.settingsMalformed path)

/-- The settings that count: those of the file that was named, or else of the
nearest settings file, or else the defaults. -/
def loadSettings (directory : String) (named : Option String) : m (Except Failure Settings) :=
  match named with
  | some path => do
    match ← read path with
    | some content => pure (settingsOf path content)
    | none => pure (.error (.settingsMissing path))
  | none => do
    match ← firstReadable read (settingsCandidates directory) with
    | some (path, content) => pure (settingsOf path content)
    | none => pure (.ok {})

def loadModule (path : String) : m (Except Failure CodeModule) := do
  match ← read path with
  | none => pure (.error (.load path .unreadable))
  | some content =>
    match CodeModule.parse content with
    | .ok code => pure (.ok code)
    | .error error => pure (.error (.load path error))

/-- Runs a command line in a working directory. Settings are loaded before the
module. -/
def run (directory : String) (args : List String) : m Outcome :=
  match Arguments.parse args with
  | .error .usage => pure .usage
  | .error .version => pure (.success versionText)
  | .error .help => pure (.success "")
  | .ok arguments => do
    match ← loadSettings read directory arguments.config with
    | .error failure => pure (.failed "" failure)
    | .ok settings =>
      match ← loadModule read arguments.path with
      | .error failure => pure (.failed "" failure)
      | .ok code => pure (perform settings arguments.task code)

end Files

end Command

end StackLift
