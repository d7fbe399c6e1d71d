import StackLift.Code.Address

/-!
# Operations

The operations of the stack machine. Each has a byte, a name in module files, an
assembler mnemonic, a place in the control flow, and, but for calls, a fixed
effect on the evaluation stack.
-/

namespace StackLift

/-- What an instruction does to control. -/
inductive Flow where
  | next
  | jump
  | conditional
  | call
  | leave
  | throw
  deriving DecidableEq, Repr

/-- Whether the following instruction starts a new block. -/
def Flow.endsBlock : Flow → Bool
  | .jump | .conditional | .leave | .throw => true
  | .next | .call => false

/-- How many slots an operation takes from the evaluation stack and how many it
leaves there. -/
structure StackEffect where
  pops : Nat
  pushes : Nat
  deriving DecidableEq, Repr

inductive Opcode where
  | nop | ldnull | ldcI4
  | ldarg | starg | ldloc | stloc
  | add | sub | mul | div | rem | neg
  | and | or | xor | not | shl | shr
  | ceq | cgt | clt
  | call | ret | retVoid
  | pop | throw
  | br | brtrue | brfalse
  | beq | bneUn | blt | bltUn | ble | bleUn | bgt | bgtUn | bge | bgeUn
  deriving DecidableEq, Repr

namespace Opcode

/-- All operations, in the order of their bytes. -/
def all : List Opcode :=
  [.nop, .ldnull, .ldcI4,
    .ldarg, .starg, .ldloc, .stloc,
    .add, .sub, .mul, .div, .rem, .neg,
    .and, .or, .xor, .not, .shl, .shr,
    .ceq, .cgt, .clt,
    .call, .ret, .retVoid,
    .pop, .throw,
    .br, .brtrue, .brfalse,
    .beq, .bneUn, .blt, .bltUn, .ble, .bleUn, .bgt, .bgtUn, .bge, .bgeUn]

def byte : Opcode → UInt8
  | .nop => 0x00 | .ldnull => 0x01 | .ldcI4 => 0x02
  | .ldarg => 0x10 | .starg => 0x11 | .ldloc => 0x12 | .stloc => 0x13
  | .add => 0x20 | .sub => 0x21 | .mul => 0x22 | .div => 0x23 | .rem => 0x24 | .neg => 0x25
  | .and => 0x30 | .or => 0x31 | .xor => 0x32 | .not => 0x33 | .shl => 0x34 | .shr => 0x35
  | .ceq => 0x40 | .cgt => 0x41 | .clt => 0x42
  | .call => 0x50 | .ret => 0x51 | .retVoid => 0x52
  | .pop => 0x60 | .throw => 0x61
  | .br => 0x70 | .brtrue => 0x71 | .brfalse => 0x72
  | .beq => 0x73 | .bneUn => 0x74 | .blt => 0x75 | .bltUn => 0x76 | .ble => 0x77
  | .bleUn => 0x78 | .bgt => 0x79 | .bgtUn => 0x7a | .bge => 0x7b | .bgeUn => 0x7c

def ofByte? (byte : UInt8) : Option Opcode :=
  all.find? fun opcode => opcode.byte == byte

/-- The name of the operation in module files. -/
def name : Opcode → String
  | .nop => "Nop" | .ldnull => "Ldnull" | .ldcI4 => "LdcI4"
  | .ldarg => "Ldarg" | .starg => "Starg" | .ldloc => "Ldloc" | .stloc => "Stloc"
  | .add => "Add" | .sub => "Sub" | .mul => "Mul" | .div => "Div" | .rem => "Rem" | .neg => "Neg"
  | .and => "And" | .or => "Or" | .xor => "Xor" | .not => "Not" | .shl => "Shl" | .shr => "Shr"
  | .ceq => "Ceq" | .cgt => "Cgt" | .clt => "Clt"
  | .call => "Call" | .ret => "Ret" | .retVoid => "RetVoid"
  | .pop => "Pop" | .throw => "Throw"
  | .br => "Br" | .brtrue => "Brtrue" | .brfalse => "Brfalse"
  | .beq => "Beq" | .bneUn => "BneUn" | .blt => "Blt" | .bltUn => "BltUn" | .ble => "Ble"
  | .bleUn => "BleUn" | .bgt => "Bgt" | .bgtUn => "BgtUn" | .bge => "Bge" | .bgeUn => "BgeUn"

def ofName? (name : String) : Option Opcode :=
  all.find? fun opcode => opcode.name == name

/-- The assembler mnemonic, as it stands in listings and dumps. -/
def mnemonic : Opcode → String
  | .nop => "nop" | .ldnull => "ldnull" | .ldcI4 => "ldc.i4"
  | .ldarg => "ldarg" | .starg => "starg" | .ldloc => "ldloc" | .stloc => "stloc"
  | .add => "add" | .sub => "sub" | .mul => "mul" | .div => "div" | .rem => "rem" | .neg => "neg"
  | .and => "and" | .or => "or" | .xor => "xor" | .not => "not" | .shl => "shl" | .shr => "shr"
  | .ceq => "ceq" | .cgt => "cgt" | .clt => "clt"
  | .call => "call" | .ret => "ret" | .retVoid => "ret.void"
  | .pop => "pop" | .throw => "throw"
  | .br => "br" | .brtrue => "brtrue" | .brfalse => "brfalse"
  | .beq => "beq" | .bneUn => "bne.un" | .blt => "blt" | .bltUn => "blt.un" | .ble => "ble"
  | .bleUn => "ble.un" | .bgt => "bgt" | .bgtUn => "bgt.un" | .bge => "bge" | .bgeUn => "bge.un"

def flow : Opcode → Flow
  | .br => .jump
  | .brtrue | .brfalse | .beq | .bneUn | .blt | .bltUn | .ble | .bleUn | .bgt | .bgtUn
  | .bge | .bgeUn => .conditional
  | .call => .call
  | .ret | .retVoid => .leave
  | .throw => .throw
  | _ => .next

def isConditional (opcode : Opcode) : Bool :=
  opcode.flow == .conditional

/-- Whether the operation carries the destination of a jump. -/
def isJump (opcode : Opcode) : Bool :=
  opcode.flow == .jump || opcode.flow == .conditional

/-- The fixed stack effect. A call has none, since its operand tells the effect. -/
def effect? : Opcode → Option StackEffect
  | .nop | .br | .retVoid => some ⟨0, 0⟩
  | .ldnull | .ldcI4 | .ldarg | .ldloc => some ⟨0, 1⟩
  | .starg | .stloc | .pop | .throw | .ret | .brtrue | .brfalse => some ⟨1, 0⟩
  | .neg | .not => some ⟨1, 1⟩
  | .add | .sub | .mul | .div | .rem | .and | .or | .xor | .shl | .shr | .ceq | .cgt
  | .clt => some ⟨2, 1⟩
  | .beq | .bneUn | .blt | .bltUn | .ble | .bleUn | .bgt | .bgtUn | .bge
  | .bgeUn => some ⟨2, 0⟩
  | .call => none

@[simp]
theorem ofByte?_byte (opcode : Opcode) : ofByte? opcode.byte = some opcode := by
  cases opcode <;> decide

@[simp]
theorem ofName?_name (opcode : Opcode) : ofName? opcode.name = some opcode := by
  cases opcode <;> decide

end Opcode

structure UnknownByte where
  byte : UInt8
  deriving DecidableEq, Repr

def UnknownByte.message (error : UnknownByte) : String :=
  "Invalid opcode: 0x" ++ Text.hex 2 error.byte.toNat

def Opcode.decode (byte : UInt8) : Except UnknownByte Opcode :=
  match ofByte? byte with
  | some opcode => .ok opcode
  | none => .error ⟨byte⟩

end StackLift
