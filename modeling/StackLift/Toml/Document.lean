import StackLift.Toml.Value

/-!
# Settings texts

A settings text has a line for each table header and for each key with its value.
What it says is kept by full paths. Nothing is defined twice: a table has one
header, a key has one value, and dotted keys add only to tables that dotted keys
have made.
-/

namespace StackLift.Toml

/-- What made a table. -/
inductive Origin where
  | header
  /-- The header of a table within it. -/
  | inner
  | dotted
  deriving DecidableEq, Repr

inductive Node where
  | value (value : Value)
  | table (origin : Origin)
  deriving DecidableEq, Repr

structure Document where
  /-- What each path leads to. All tables around a node are nodes too. -/
  nodes : List (Path × Node) := []
  current : Path := []
  deriving DecidableEq, Repr

namespace Document

def node? (document : Document) (path : Path) : Option Node :=
  document.nodes.lookup path

def set (document : Document) (path : Path) (node : Node) : Document :=
  { document with nodes := (path, node) :: document.nodes.filter fun entry => entry.1 != path }

@[simp]
theorem node?_set_self (document : Document) (path : Path) (node : Node) :
    (document.set path node).node? path = some node := by
  simp [node?, set]

def members (document : Document) (table : Path) : List (String × Node) :=
  document.nodes.filterMap fun (path, node) =>
    path.getLast?.bind fun name => if path = table ++ [name] then some (name, node) else none

/-- The paths that lead from a table to a path within it, without both ends. -/
def pathsBetween (table : Path) (key : Path) : List Path :=
  (List.range key.length).drop 1 |>.map fun count => table ++ key.take count

/-- Makes the table around the table of a header, unless it is there. -/
def passHeader (document : Document) (path : Path) : Option Document :=
  match document.node? path with
  | none => some (document.set path (.table .inner))
  | some (.table _) => some document
  | some (.value _) => none

/-- Goes on with the table of a header. No header and no dotted key may have made it
before. -/
def enter (document : Document) (path : Path) : Option Document :=
  ((pathsBetween [] path).foldlM passHeader document).bind fun passed =>
    match passed.node? path with
    | none | some (.table .inner) =>
      some { passed.set path (.table .header) with current := path }
    | some _ => none

/-- Makes the table around a dotted key, unless it is there. Tables with a header
are closed to dotted keys. -/
def passKey (document : Document) (path : Path) : Option Document :=
  match document.node? path with
  | none => some (document.set path (.table .dotted))
  | some (.table .inner) | some (.table .dotted) => some document
  | some (.table .header) | some (.value _) => none

/-- Gives a value to a key of the current table, which must be new. The table right
around a dotted key has to be made by dotted keys. -/
def assign (document : Document) (key : Path) (value : Value) : Option Document :=
  let path := document.current ++ key
  let between := pathsBetween document.current key
  (between.foldlM passKey document).bind fun passed =>
    let isOpen := between.getLast?.all fun table => passed.node? table = some (.table .dotted)
    if isOpen && (passed.node? path).isNone then some (passed.set path (.value value)) else none

end Document

/-- Whether nothing but blanks and a comment is left of a line. -/
def endsLine (chars : List Char) : Bool :=
  match skipBlanks chars with
  | [] => true
  | '#' :: comment => comment.all isPrintable
  | _ => false

def Document.step (document : Document) (line : List Char) : Option Document :=
  match skipBlanks line with
  | '[' :: rest =>
    match path? rest with
    | some (path, ']' :: left) => if endsLine left then document.enter path else none
    | _ => none
  | chars =>
    if endsLine chars then some document
    else
      match path? chars with
      | some (key, '=' :: rest) =>
        match value? (skipBlanks rest) with
        | some (value, left) => if endsLine left then document.assign key value else none
        | none => none
      | _ => none

def dropReturn (line : List Char) : List Char :=
  match line.getLast? with
  | some '\r' => line.dropLast
  | _ => line

/-- The lines of a text. The last has no line feed after it. -/
def lines (chars : List Char) : List (List Char) :=
  match (chars.splitOn '\n').reverse with
  | [] => []
  | last :: before => (before.map dropReturn).reverse ++ [last]

def dropByteOrderMark : List Char → List Char
  | '\ufeff' :: rest => rest
  | chars => chars

def parse? (text : String) : Option Document :=
  (lines (dropByteOrderMark text.toList)).foldlM Document.step {}

end StackLift.Toml
