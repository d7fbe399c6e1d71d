import StackLift.Code.Address
import StackLift.Code.Opcode

/-!
# Instructions

An instruction is an operation at an address with an inline operand. Its operand
completes what the operation alone leaves open: the effect of a call on the
stack, and the destination of a jump.
-/

namespace StackLift

/-- The shape of a call: the callee, the number of arguments on the stack, and
whether a result is pushed. -/
structure CallSite where
  callee : UInt32
  args : UInt8
  returns : Bool
  deriving DecidableEq, Repr

inductive Operand where
  | absent
  | int32 (value : Int32)
  | localVar (index : UInt16)
  | argument (index : UInt16)
  | target (address : Address)
  | call (site : CallSite)
  deriving DecidableEq, Repr

namespace Operand

/-- The operand as it stands in listings and dumps. -/
def text : Operand → String
  | .absent => ""
  | .int32 value => Text.decimal value.toInt
  | .localVar index => "V_" ++ Nat.repr index.toNat
  | .argument index => "A_" ++ Nat.repr index.toNat
  | .target address => address.text
  | .call site =>
    "M_" ++ Text.hex 8 site.callee.toNat ++ "/" ++ Nat.repr site.args.toNat ++
      (if site.returns then "" else " void")

/-- The operand with its kind spelled out, as error messages show it. -/
def describe : Operand → String
  | .absent => "None"
  | .int32 value => "Int32(" ++ Text.decimal value.toInt ++ ")"
  | .localVar index => "Local(" ++ Nat.repr index.toNat ++ ")"
  | .argument index => "Arg(" ++ Nat.repr index.toNat ++ ")"
  | .target address => "Target(Address(" ++ Nat.repr address.toNat ++ "))"
  | .call site =>
    "Call(CallSite \x7b method: MethodToken(" ++ Nat.repr site.callee.toNat ++ "), args: " ++
      Nat.repr site.args.toNat ++ ", returns: " ++ (if site.returns then "true" else "false") ++
      " \x7d)"

end Operand

/-- Whether the operand is of the kind that the operation takes. -/
def Opcode.accepts (opcode : Opcode) (operand : Operand) : Bool :=
  match opcode, operand with
  | .ldcI4, .int32 _ => true
  | .ldarg, .argument _ | .starg, .argument _ => true
  | .ldloc, .localVar _ | .stloc, .localVar _ => true
  | .call, .call _ => true
  | .ldcI4, _ | .ldarg, _ | .starg, _ | .ldloc, _ | .stloc, _ | .call, _ => false
  | other, .target _ => other.isJump
  | other, .absent => !other.isJump
  | _, _ => false

/-- An operation at an address, with its inline operand. -/
structure Instruction where
  address : Address
  opcode : Opcode
  operand : Operand := .absent
  deriving DecidableEq, Repr

namespace Instruction

def ldc (address : Address) (value : Int32) : Instruction :=
  ⟨address, .ldcI4, .int32 value⟩

def ldarg (address : Address) (index : UInt16) : Instruction :=
  ⟨address, .ldarg, .argument index⟩

def ldloc (address : Address) (index : UInt16) : Instruction :=
  ⟨address, .ldloc, .localVar index⟩

def stloc (address : Address) (index : UInt16) : Instruction :=
  ⟨address, .stloc, .localVar index⟩

def jump (address : Address) (opcode : Opcode) (target : Address) : Instruction :=
  ⟨address, opcode, .target target⟩

def call (address : Address) (callee : UInt32) (args : UInt8) (returns : Bool) : Instruction :=
  ⟨address, .call, .call ⟨callee, args, returns⟩⟩

def pops (instruction : Instruction) : Nat :=
  match instruction.opcode.effect?, instruction.operand with
  | some effect, _ => effect.pops
  | none, .call site => site.args.toNat
  | none, _ => 0

/-- Number of slots that the instruction leaves on the stack, zero or one. -/
def pushes (instruction : Instruction) : Nat :=
  match instruction.opcode.effect?, instruction.operand with
  | some effect, _ => effect.pushes
  | none, .call site => site.returns.toNat
  | none, _ => 0

def flow (instruction : Instruction) : Flow :=
  instruction.opcode.flow

def jumpTarget? (instruction : Instruction) : Option Address :=
  match instruction.operand with
  | .target address => if instruction.opcode.isJump then some address else none
  | _ => none

def isForwardJump (instruction : Instruction) : Bool :=
  instruction.jumpTarget?.any fun target => instruction.address < target

/-- Address, mnemonic and, unless it is absent, operand. -/
def text (instruction : Instruction) : String :=
  instruction.address.text ++ ": " ++ instruction.opcode.mnemonic ++
    (if instruction.operand = .absent then "" else " " ++ instruction.operand.text)

end Instruction

end StackLift
