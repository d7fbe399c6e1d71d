import StackLift.Code.Instruction
import StackLift.Flow.Phi

/-!
# Lifted methods

A lifted method is a list of statements over expression trees. An expression is
an instruction applied to its operands, or a merge of values of which the path
that was taken selects one. The dump of a method shows each statement on a line,
below the labels that stand before it.
-/

namespace StackLift

inductive Expr where
  | op (address : Address) (opcode : Opcode) (operand : Operand) (args : List Expr)
  /-- A value that depends on the path taken: for each path the label of the block
  that produces the value. The phi set is that of the consumer `anchor`. -/
  | phi (anchor : Address) (incoming : List (Address × Expr))
  deriving Repr, Inhabited

namespace Expr

/-- The address that the expression is attributed to. -/
def address : Expr → Address
  | .op address _ _ _ => address
  | .phi anchor _ => anchor

mutual

def containsPhi : Expr → Bool
  | .op _ _ _ args => anyContainsPhi args
  | .phi _ _ => true

def anyContainsPhi : List Expr → Bool
  | [] => false
  | expr :: rest => containsPhi expr || anyContainsPhi rest

end

/-- Mnemonic and, unless it is absent, operand. -/
def head (opcode : Opcode) (operand : Operand) : String :=
  opcode.mnemonic ++ (if operand = .absent then "" else " " ++ operand.text)

mutual

def text : Expr → String
  | .op _ opcode operand [] => head opcode operand
  | .op _ opcode operand args =>
    head opcode operand ++ "(" ++ Text.commaSeparated (argTexts args) ++ ")"
  | .phi _ incoming => "phi[" ++ Text.commaSeparated (incomingTexts incoming) ++ "]"

def argTexts : List Expr → List String
  | [] => []
  | expr :: rest => text expr :: argTexts rest

def incomingTexts : List (Address × Expr) → List String
  | [] => []
  | (label, value) :: rest => (label.text ++ ": " ++ text value) :: incomingTexts rest

end

end Expr

/-- An instruction that leaves nothing on the stack, with its operands and the
labels that stand before it. -/
structure Statement where
  address : Address
  labels : List Address
  expr : Expr
  deriving Repr

/-- The labels, each on a line of its own, and the indented expression. -/
def Statement.text (statement : Statement) : String :=
  String.join (statement.labels.map fun label => label.text ++ ":\n") ++
    "    " ++ statement.expr.text

structure LiftedMethod where
  name : String
  statements : List Statement
  phis : List (Address × Phi)
  labels : List Address
  deriving Repr

def LiftedMethod.text (method : LiftedMethod) : String :=
  "method " ++ method.name ++ " \x7b\n" ++
    String.join (method.statements.map fun statement => statement.text ++ "\n") ++ "\x7d"

end StackLift
