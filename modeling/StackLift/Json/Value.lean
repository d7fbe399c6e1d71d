import StackLift.Code.Address

/-!
# JSON values

A value keeps the members of an object in the order of the text, so that a
repeated name stays visible. Fields of module files are whole numbers, texts,
truth values, lists and records; whatever the grammar allows beyond that is kept
only as the fact that it was there.

A value is written over several lines with two blanks for each level of nesting.
In strings only quotes, backslashes and control characters are escaped.
-/

namespace StackLift

/-- A value read from, or to be written as, JSON text. -/
inductive Json where
  | null
  | bool (value : Bool)
  | int (value : Int)
  | string (text : String)
  | array (items : List Json)
  | object (members : List (String × Json))
  /-- A well-formed value that no field takes: a number with a fraction or an
  exponent or written `-0`, a string whose escapes leave half a surrogate pair,
  or an object with such a string for a name. -/
  | unusable
  deriving Repr, Inhabited

namespace Json

def bool? : Json → Option Bool
  | .bool value => some value
  | _ => none

def string? : Json → Option String
  | .string text => some text
  | _ => none

def items? : Json → Option (List Json)
  | .array items => some items
  | _ => none

/-- A whole number that is not negative and lies below a bound. -/
def natBelow? (bound : Nat) : Json → Option Nat
  | .int (.ofNat value) => if value < bound then some value else none
  | _ => none

def uint8? (json : Json) : Option UInt8 :=
  (json.natBelow? 256).map UInt8.ofNat

def uint16? (json : Json) : Option UInt16 :=
  (json.natBelow? 65536).map UInt16.ofNat

def uint32? (json : Json) : Option UInt32 :=
  (json.natBelow? 4294967296).map UInt32.ofNat

def fitsInt32 : Int → Bool
  | .ofNat value => value < 2147483648
  | .negSucc value => value < 2147483648

def int32? : Json → Option Int32
  | .int value => if fitsInt32 value then some (Int32.ofInt value) else none
  | _ => none

/-- The value of each named field of a record. A record is an object, where other
names are skipped and a field must not be repeated, or an array that lists the
fields from the first on. -/
def fields? (names : List String) : Json → Option (List (Option Json))
  | .object members =>
    names.mapM fun name =>
      match members.filter fun member => member.1 == name with
      | [] => some none
      | [member] => some (some member.2)
      | _ => none
  | .array items =>
    if items.length ≤ names.length then
      some (items.map some ++ List.replicate (names.length - items.length) none)
    else none
  | _ => none

/-- The name of a variant and its payload. A variant is a string, or an object
with one member. -/
def variant? : Json → Option (String × Option Json)
  | .string name => some (name, none)
  | .object [(name, payload)] => some (name, some payload)
  | _ => none

/-! Reading a number of fixed width gives back the number that was written. -/

theorem natBelow?_natCast (bound value : Nat) :
    (Json.int value).natBelow? bound = if value < bound then some value else none := rfl

@[simp]
theorem uint8?_toNat (value : UInt8) : (Json.int value.toNat).uint8? = some value := by
  have hbound : value.toNat < 256 := value.toNat_lt
  simp [uint8?, natBelow?_natCast, hbound]

@[simp]
theorem uint16?_toNat (value : UInt16) : (Json.int value.toNat).uint16? = some value := by
  have hbound : value.toNat < 65536 := value.toNat_lt
  simp [uint16?, natBelow?_natCast, hbound]

@[simp]
theorem uint32?_toNat (value : UInt32) : (Json.int value.toNat).uint32? = some value := by
  have hbound : value.toNat < 4294967296 := value.toNat_lt
  simp [uint32?, natBelow?_natCast, hbound]

/-- The numbers that take at most 32 bits are those from -2147483648 to 2147483647. -/
theorem fitsInt32_iff {value : Int} :
    fitsInt32 value = true ↔ -2147483648 ≤ value ∧ value < 2147483648 := by
  cases value with
  | ofNat value =>
    simp only [fitsInt32, decide_eq_true_eq, Int.ofNat_eq_natCast]
    omega
  | negSucc value =>
    simp only [fitsInt32, decide_eq_true_eq]
    omega

@[simp]
theorem int32?_toInt (value : Int32) : (Json.int value.toInt).int32? = some value := by
  have hfits : fitsInt32 value.toInt = true :=
    fitsInt32_iff.2 ⟨value.le_toInt, value.toInt_lt⟩
  simp [int32?, hfits]

/-! ## Writing -/

/-- A character as it stands in a string. -/
def escape (char : Char) : List Char :=
  match char with
  | '"' => ['\\', '"']
  | '\\' => ['\\', '\\']
  | '\x08' => ['\\', 'b']
  | '\x0c' => ['\\', 'f']
  | '\n' => ['\\', 'n']
  | '\r' => ['\\', 'r']
  | '\t' => ['\\', 't']
  | _ =>
    if char.toNat < 0x20 then
      '\\' :: 'u' :: Text.zeroFill 4 (Nat.toDigits 16 char.toNat)
    else [char]

def quote (text : String) : List Char :=
  '"' :: text.toList.flatMap escape ++ ['"']

/-- The start of a line at a level of nesting. -/
def margin (level : Nat) : List Char :=
  List.replicate (2 * level) ' '

mutual

/-- The lines of a value at a level of nesting, without the first margin. -/
def prettyChars (level : Nat) : Json → List Char
  | .null | .unusable => "null".toList
  | .bool value => (if value then "true" else "false").toList
  | .int value => (Text.decimal value).toList
  | .string text => quote text
  | .array [] => "[]".toList
  | .array items => '[' :: '\n' :: prettyItems (level + 1) items ++ '\n' :: margin level ++ [']']
  | .object [] => "\x7b\x7d".toList
  | .object members =>
    '\x7b' :: '\n' :: prettyMembers (level + 1) members ++ '\n' :: margin level ++ ['\x7d']

def prettyItems (level : Nat) : List Json → List Char
  | [] => []
  | [item] => margin level ++ prettyChars level item
  | item :: items =>
    margin level ++ prettyChars level item ++ ',' :: '\n' :: prettyItems level items

def prettyMembers (level : Nat) : List (String × Json) → List Char
  | [] => []
  | [(name, value)] => margin level ++ quote name ++ ':' :: ' ' :: prettyChars level value
  | (name, value) :: members =>
    margin level ++ quote name ++ ':' :: ' ' :: prettyChars level value ++
      ',' :: '\n' :: prettyMembers level members

end

def pretty (json : Json) : String :=
  String.ofList (prettyChars 0 json)

end Json

end StackLift
