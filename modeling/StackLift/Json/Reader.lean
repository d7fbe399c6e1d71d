import StackLift.Json.Token

/-!
# Reading JSON

The tokens of a text are put together by a machine that takes one token at a
time and keeps the arrays and objects that are still open. It needs no recursion,
so a value may be nested to any depth.
-/

namespace StackLift.Json

/-- An array or object that is still open, with its content so far, last first. -/
inductive Frame where
  | array (items : List Json)
  | object (members : List (Option String × Json))
  /-- An object within a member of which the value is to come. -/
  | member (members : List (Option String × Json)) (name : Option String)
  deriving Repr

/-- What may come next. -/
inductive Expectation where
  | value
  | valueOrClose
  | name
  | nameOrClose
  | colon
  | separator
  | done (value : Json)
  deriving Repr

/-- The machine that puts tokens together. -/
structure Reader where
  expectation : Expectation
  frames : List Frame
  deriving Repr

def ofText : Option String → Json
  | some text => .string text
  | none => .unusable

/-- The object with the given members, last first. All names have to denote a text. -/
def ofMembers (members : List (Option String × Json)) : Json :=
  match members.reverse.mapM fun member => member.1.map fun name => (name, member.2) with
  | some named => .object named
  | none => .unusable

namespace Reader

def start : Reader := ⟨.value, []⟩

/-- The machine after a complete value inside the given frames. -/
def place (value : Json) : List Frame → Option Reader
  | [] => some ⟨.done value, []⟩
  | .array items :: frames => some ⟨.separator, .array (value :: items) :: frames⟩
  | .member members name :: frames =>
    some ⟨.separator, .object ((name, value) :: members) :: frames⟩
  | .object _ :: _ => none

def stepValue (frames : List Frame) : Token → Option Reader
  | .literal value => place value frames
  | .string text => place (ofText text) frames
  | .openArray => some ⟨.valueOrClose, .array [] :: frames⟩
  | .openObject => some ⟨.nameOrClose, .object [] :: frames⟩
  | _ => none

def stepClose (frames : List Frame) (token : Token) : Option Reader :=
  match token, frames with
  | .closeArray, .array items :: outer => place (.array items.reverse) outer
  | .closeObject, .object members :: outer => place (ofMembers members) outer
  | _, _ => none

def stepName (frames : List Frame) (token : Token) : Option Reader :=
  match token, frames with
  | .string name, .object members :: outer => some ⟨.colon, .member members name :: outer⟩
  | _, _ => none

def stepComma (frames : List Frame) : Option Reader :=
  match frames with
  | .array _ :: _ => some ⟨.value, frames⟩
  | .object _ :: _ => some ⟨.name, frames⟩
  | _ => none

/-- The machine after one more token, unless no text goes on this way. -/
def step (reader : Reader) (token : Token) : Option Reader :=
  match reader.expectation, token with
  | .value, _ => stepValue reader.frames token
  | .valueOrClose, .closeArray => stepClose reader.frames token
  | .valueOrClose, _ => stepValue reader.frames token
  | .name, _ => stepName reader.frames token
  | .nameOrClose, .closeObject => stepClose reader.frames token
  | .nameOrClose, _ => stepName reader.frames token
  | .colon, .colon => some ⟨.value, reader.frames⟩
  | .colon, _ => none
  | .separator, .comma => stepComma reader.frames
  | .separator, _ => stepClose reader.frames token
  | .done _, _ => none

def finish (reader : Reader) : Option Json :=
  match reader.expectation with
  | .done value => some value
  | _ => none

end Reader

def ofTokens? (tokens : List Token) : Option Json :=
  (tokens.foldlM Reader.step Reader.start).bind Reader.finish

/-- The value that a text stands for. The whole text has to be one value. -/
def parse? (text : String) : Option Json :=
  (tokens? text.toList).bind ofTokens?

end StackLift.Json
