import StackLift.Code.Instruction

/-!
# Methods

A method is a named stream of instructions. Everything that works on a method
relies on a contract: addresses increase strictly, none is the reserved one,
operands fit their operations, and jumps land on instructions. `Method.validate`
checks the contract and names the first breach of it.
-/

namespace StackLift

/-- A breach of the contract for methods. -/
inductive Fault where
  | reservedAddress (address : Address)
  | notIncreasing (previous address : Address)
  | operandMismatch (address : Address) (opcode : Opcode) (operand : Operand)
  | missingTarget (address target : Address)
  deriving DecidableEq, Repr

def Fault.message : Fault → String
  | .reservedAddress address => "Reserved address used by instruction: " ++ address.text
  | .notIncreasing previous address =>
    "Address " ++ address.text ++ " does not follow " ++ previous.text
  | .operandMismatch address opcode operand =>
    "Operand mismatch at " ++ address.text ++ ": " ++ opcode.mnemonic ++ " does not take " ++
      operand.describe
  | .missingTarget address target =>
    "Invalid jump target " ++ target.text ++ " from " ++ address.text

structure Method where
  name : String
  instructions : Array Instruction
  deriving DecidableEq, Repr

namespace Method

/-- The name, or `<anonymous>` if it is empty. -/
def displayName (method : Method) : String :=
  if method.name.isEmpty then "<anonymous>" else method.name

/-- Bisection: of the `size` instructions from `low` on, the last whose address is
not above `address`, or the one at `low` if there is none. -/
def bisect (instructions : Array Instruction) (address : Address) (low size : Nat) : Nat :=
  if size ≤ 1 then low
  else
    let middle := low + size / 2
    let above := instructions[middle]?.any fun instruction => address < instruction.address
    bisect instructions address (if above then low else middle) (size - size / 2)
termination_by size
decreasing_by omega

/-- Index of the instruction at an address, found by bisection, so only where
addresses increase. -/
def position? (method : Method) (address : Address) : Option Nat :=
  let index := bisect method.instructions address 0 method.instructions.size
  match method.instructions[index]? with
  | some instruction => if instruction.address = address then some index else none
  | none => none

def find? (method : Method) (address : Address) : Option Instruction :=
  (method.position? address).bind fun index => method.instructions[index]?

/-- The breach of the contract by one instruction alone, given the address of the
instruction before it. -/
def faultAt? (previous : Option Address) (instruction : Instruction) : Option Fault :=
  if instruction.address = Address.last then some (.reservedAddress instruction.address)
  else
    match previous.filter fun before => instruction.address ≤ before with
    | some before => some (.notIncreasing before instruction.address)
    | none =>
      if instruction.opcode.accepts instruction.operand then none
      else some (.operandMismatch instruction.address instruction.opcode instruction.operand)

def firstFault? (previous : Option Address) : List Instruction → Option Fault
  | [] => none
  | instruction :: rest =>
    match faultAt? previous instruction with
    | some fault => some fault
    | none => firstFault? (some instruction.address) rest

def strayJump? (instructions : List Instruction) : Option Fault :=
  instructions.findSome? fun jump =>
    match jump.jumpTarget? with
    | some target =>
      if instructions.any fun instruction => instruction.address = target then none
      else some (.missingTarget jump.address target)
    | none => none

/-- Checks the contract. Breaches by single instructions are looked for first, in
address order, and jumps only then. -/
def validate (method : Method) : Except Fault Unit :=
  match firstFault? none method.instructions.toList with
  | some fault => .error fault
  | none =>
    match strayJump? method.instructions.toList with
    | some fault => .error fault
    | none => .ok ()

end Method

end StackLift
