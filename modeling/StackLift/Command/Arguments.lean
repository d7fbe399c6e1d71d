/-!
# Command lines

The arguments are read from left to right by a machine that takes one argument at
a time. The first argument that cannot be understood stops it, and so does a
request for the version or for help. Options that belong to all commands may stand
before or after the name of the command; on each side an option may be given once,
and the one after the name counts.
-/

namespace StackLift.Command

/-- What is to be done with a module file. -/
inductive Task where
  | lift (json failFast : Bool)
  | blocks
  deriving DecidableEq, Repr

structure Arguments where
  task : Task
  path : String
  config : Option String
  deriving DecidableEq, Repr

/-- Why there is nothing to run. -/
inductive Stop where
  | usage
  | version
  | help
  deriving DecidableEq, Repr

/-- The form of one argument. -/
inductive Argument where
  | separator
  | long (name : String) (value : Option String)
  | short (letters : List Char)
  | plain (text : String)
  deriving DecidableEq, Repr

/-- A name and the text after the first equals sign. -/
def splitValue (chars : List Char) : Argument :=
  match chars.dropWhile (· != '=') with
  | [] => .long (String.ofList chars) none
  | _ :: value => .long (String.ofList (chars.takeWhile (· != '='))) (some (String.ofList value))

/-- The form of an argument. A dash alone is plain. -/
def Argument.ofText (text : String) : Argument :=
  match text.toList with
  | ['-', '-'] => .separator
  | '-' :: '-' :: rest => splitValue rest
  | '-' :: letter :: rest => .short (letter :: rest)
  | _ => .plain text

/-- What the command `help` is asked about. -/
inductive Topic where
  | program
  | command
  deriving DecidableEq, Repr

/-- Only the program has commands to ask about. -/
def Topic.step : Topic → String → Except Stop Topic
  | .program, "translate" | .program, "blocks" | .program, "help" => .ok .command
  | _, _ => .error .usage

/-- What has been read so far. -/
structure Scan where
  task : Option Task := none
  verbose : Bool := false
  /-- The settings file given on this side of the name. -/
  config : Option String := none
  /-- The settings file given before the name. -/
  outerConfig : Option String := none
  awaitsConfig : Bool := false
  plainOnly : Bool := false
  path : Option String := none
  topic : Option Topic := none
  deriving DecidableEq, Repr

namespace Scan

def enter (scan : Scan) (task : Task) : Scan :=
  { task := some task, outerConfig := scan.config }

def setConfig (scan : Scan) (path : String) : Except Stop Scan :=
  if path.isEmpty then .error .usage
  else .ok { scan with config := some path, awaitsConfig := false }

/-- The name of a command, or the one path that a command takes. -/
def stepPlain (scan : Scan) (text : String) : Except Stop Scan :=
  match scan.task, scan.path with
  | none, _ =>
    if scan.plainOnly then .error .usage
    else if text = "translate" then .ok (scan.enter (.lift false false))
    else if text = "blocks" then .ok (scan.enter .blocks)
    else if text = "help" then .ok { scan with topic := some .program }
    else .error .usage
  | some _, none =>
    if text.isEmpty then .error .usage else .ok { scan with path := some text }
  | some _, some _ => .error .usage

def stepVerbose (scan : Scan) : Except Stop Scan :=
  if scan.verbose then .error .usage else .ok { scan with verbose := true }

def stepConfig (scan : Scan) (value : Option String) : Except Stop Scan :=
  if scan.config.isSome then .error .usage
  else
    match value with
    | some path => scan.setConfig path
    | none => .ok { scan with awaitsConfig := true }

/-- An option by its name. Every command has its own help, but only the program has a
version. -/
def stepLong (scan : Scan) (name : String) (value : Option String) : Except Stop Scan :=
  match name, value, scan.task with
  | "config", _, _ => scan.stepConfig value
  | "verbose", none, _ => scan.stepVerbose
  | "help", none, _ => .error .help
  | "version", none, none => .error .version
  | "json", none, some (.lift false failFast) =>
    .ok { scan with task := some (.lift true failFast) }
  | "fail-fast", none, some (.lift json false) =>
    .ok { scan with task := some (.lift json true) }
  | _, _, _ => .error .usage

def stepLetter (scan : Scan) (letter : Char) : Except Stop Scan :=
  if letter = 'v' then scan.stepVerbose
  else if letter = 'h' then .error .help
  else if letter = 'V' ∧ scan.task.isNone then .error .version
  else .error .usage

/-- Takes one more argument that does not follow the command `help`. -/
def stepArgument (scan : Scan) (text : String) : Except Stop Scan :=
  if scan.plainOnly then scan.stepPlain text
  else
    match Argument.ofText text, scan.awaitsConfig with
    | .plain text, true => scan.setConfig text
    | .plain text, false => scan.stepPlain text
    | _, true => .error .usage
    | .separator, false => .ok { scan with plainOnly := true }
    | .long name value, false => scan.stepLong name value
    | .short letters, false => letters.foldlM stepLetter scan

def step (scan : Scan) (text : String) : Except Stop Scan :=
  match scan.topic with
  | some topic => do return { scan with topic := some (← topic.step text) }
  | none => scan.stepArgument text

/-- The command line that ends here. -/
def finish (scan : Scan) : Except Stop Arguments :=
  if scan.topic.isSome then .error .help
  else
    match scan.awaitsConfig, scan.task, scan.path with
    | false, some task, some path =>
      .ok { task, path, config := scan.config.or scan.outerConfig }
    | _, _, _ => .error .usage

end Scan

def Arguments.parse (args : List String) : Except Stop Arguments :=
  (args.foldlM Scan.step {}).bind Scan.finish

end StackLift.Command
