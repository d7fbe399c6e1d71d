import StackLift.Code.Method
import StackLift.Json.Value

/-!
# Code as JSON

Instructions and methods as they stand in module files. Reading accepts every
form of a record or variant that the format allows; writing always takes the form
with all names. For each of them, reading gives back what was written.
-/

namespace StackLift

namespace Address

/-- An address is written as its offset. -/
def toJson (address : Address) : Json :=
  .int address.toNat

def ofJson? (json : Json) : Option Address :=
  json.uint32?.map Address.mk

@[simp]
theorem ofJson?_toJson (address : Address) : ofJson? address.toJson = some address := by
  simp [ofJson?, toJson, toNat]

end Address

namespace CallSite

/-- A call site is a record of three fields. -/
def toJson (site : CallSite) : Json :=
  .object
    [("method", .int site.callee.toNat), ("args", .int site.args.toNat),
      ("returns", .bool site.returns)]

def ofJson? (json : Json) : Option CallSite :=
  match json.fields? ["method", "args", "returns"] with
  | some [some callee, some args, some returns] => do
    let callee ← callee.uint32?
    let args ← args.uint8?
    let returns ← returns.bool?
    pure { callee, args, returns }
  | _ => none

@[simp]
theorem ofJson?_toJson (site : CallSite) : ofJson? site.toJson = some site := by
  simp [ofJson?, toJson, Json.fields?, Json.bool?]

end CallSite

namespace Opcode

/-- An operation is written as its name. -/
def toJson (opcode : Opcode) : Json :=
  .string opcode.name

/-- The name alone, or with an empty payload. -/
def ofJson? (json : Json) : Option Opcode :=
  match json.variant? with
  | some (name, none) | some (name, some .null) => ofName? name
  | _ => none

@[simp]
theorem ofJson?_toJson (opcode : Opcode) : ofJson? opcode.toJson = some opcode := by
  simp [ofJson?, toJson, Json.variant?]

end Opcode

namespace Operand

/-- An operand is written as its kind with its content. -/
def toJson : Operand → Json
  | .absent => .string "None"
  | .int32 value => .object [("Int32", .int value.toInt)]
  | .localVar index => .object [("Local", .int index.toNat)]
  | .argument index => .object [("Arg", .int index.toNat)]
  | .target address => .object [("Target", address.toJson)]
  | .call site => .object [("Call", site.toJson)]

/-- Each kind of operand is a variant; only the absent one has no payload. -/
def ofJson? (json : Json) : Option Operand :=
  match json.variant? with
  | some ("None", none) | some ("None", some .null) => some .absent
  | some ("Int32", some payload) => payload.int32?.map .int32
  | some ("Local", some payload) => payload.uint16?.map .localVar
  | some ("Arg", some payload) => payload.uint16?.map .argument
  | some ("Target", some payload) => (Address.ofJson? payload).map .target
  | some ("Call", some payload) => (CallSite.ofJson? payload).map .call
  | _ => none

@[simp]
theorem ofJson?_toJson (operand : Operand) : ofJson? operand.toJson = some operand := by
  cases operand <;> simp [ofJson?, toJson, Json.variant?]

end Operand

namespace Instruction

/-- An instruction is a record; an absent operand is written out. -/
def toJson (instruction : Instruction) : Json :=
  .object
    [("address", instruction.address.toJson), ("opcode", instruction.opcode.toJson),
      ("operand", instruction.operand.toJson)]

/-- The operand may be left out. -/
def ofJson? (json : Json) : Option Instruction :=
  match json.fields? ["address", "opcode", "operand"] with
  | some [some address, some opcode, operand] => do
    let address ← Address.ofJson? address
    let opcode ← Opcode.ofJson? opcode
    let operand ← operand.elim (some .absent) Operand.ofJson?
    pure { address, opcode, operand }
  | _ => none

@[simp]
theorem ofJson?_toJson (instruction : Instruction) :
    ofJson? instruction.toJson = some instruction := by
  simp [ofJson?, toJson, Json.fields?]

theorem mapM_ofJson?_toJson (instructions : List Instruction) :
    (instructions.map toJson).mapM ofJson? = some instructions := by
  induction instructions with
  | nil => rfl
  | cons instruction rest ih => simp [ih]

end Instruction

namespace Method

/-- A method is a record of its name and its instructions. -/
def toJson (method : Method) : Json :=
  .object
    [("name", .string method.name),
      ("instructions", .array (method.instructions.toList.map Instruction.toJson))]

/-- The name may be left out, but only in the form with names, since it comes first. -/
def ofJson? (json : Json) : Option Method :=
  match json.fields? ["name", "instructions"] with
  | some [name, some instructions] => do
    let name ← name.elim (some "") Json.string?
    let items ← instructions.items?
    let instructions ← items.mapM Instruction.ofJson?
    pure { name, instructions := instructions.toArray }
  | _ => none

@[simp]
theorem ofJson?_toJson (method : Method) : ofJson? method.toJson = some method := by
  simp [ofJson?, toJson, Json.fields?, Json.string?, Json.items?,
    Instruction.mapM_ofJson?_toJson, -List.mapM_map]

theorem mapM_ofJson?_toJson (methods : List Method) :
    (methods.map toJson).mapM ofJson? = some methods := by
  induction methods with
  | nil => rfl
  | cons method rest ih => simp [ih]

end Method

end StackLift
