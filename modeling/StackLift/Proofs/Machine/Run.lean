import StackLift.Proofs.Lift.Tree

/-!
# The plain machine

The machine executes a method as far as the stack is concerned.  A value on its
stack is named by the instruction that computed it.  Conditional jumps go either
way, so the machine has many runs.  A lifted method is right about an instruction
if, on every run, each operand that the instruction takes is one that the lifted
method has recorded.
-/

namespace StackLift

def Flow.goesOn : Flow → Bool
  | .next | .call | .conditional => true
  | .jump | .leave | .throw => false

/-- The instructions whose values an operand may stand for. -/
def Expr.producers : Expr → List Address
  | .op address _ _ _ => [address]
  | .phi _ incoming => incoming.map fun entry => entry.2.address

/-- A state of the machine: the instruction to be executed, and the instructions that
computed the values on the stack, topmost first. -/
structure Machine where
  address : Address
  stack : List Address
  deriving DecidableEq, Repr

namespace Machine

def after (instruction : Instruction) (stack : List Address) : List Address :=
  if 0 < instruction.pushes then instruction.address :: stack.drop instruction.pops
  else stack.drop instruction.pops

/-- What lies below the operands stays where it is. -/
theorem after_append {instruction : Instruction} {above : List Address}
    (hpops : instruction.pops ≤ above.length) (below : List Address) :
    after instruction (above ++ below) = after instruction above ++ below := by
  rw [after, after, List.drop_append_of_le_length hpops]
  split <;> rfl

/-- Control goes to the target of a jump, or to the following instruction. -/
inductive Step (code : List Instruction) : Machine → Machine → Prop where
  | jump {instruction : Instruction} {target : Address} (stack : List Address)
    (hmem : instruction ∈ code) (htarget : instruction.jumpTarget? = some target) :
    Step code ⟨instruction.address, stack⟩ ⟨target, after instruction stack⟩
  | next {before rest : List Instruction} {instruction following : Instruction}
    (stack : List Address) (hsplit : code = before ++ instruction :: following :: rest)
    (hflow : instruction.flow.goesOn = true) :
    Step code ⟨instruction.address, stack⟩ ⟨following.address, after instruction stack⟩

/-- The states of all runs, which start at the first instruction with an empty stack. -/
inductive Reaches (code : List Instruction) : Machine → Prop where
  | start {first : Instruction} {rest : List Instruction} (hcode : code = first :: rest) :
    Reaches code ⟨first.address, []⟩
  | step {state next : Machine} (hreaches : Reaches code state) (hstep : Step code state next) :
    Reaches code next

/-- The topmost values are among those recorded for the operands, of which the last
one is on top. -/
def Supplies (stack : List Address) (args : List Expr) : Prop :=
  ∃ operands rest, stack = operands ++ rest ∧
    List.Forall₂ (fun value arg => value ∈ arg.producers) operands args.reverse

end Machine

end StackLift
