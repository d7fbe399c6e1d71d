import Mathlib.Data.List.Perm.Basic
import StackLift.Lift.Expr

/-!
# Nodes of expression trees

The nodes of a tree are reached through operands and through merged values.  An
instruction node stands for one instruction; a merge stands for none.  The
producer of an expression is the instruction whose value the walk itself put on
the stack: for a merge the last of the merged values.
-/

namespace StackLift.Expr

mutual

/-- All nodes of an expression, itself first. -/
def nodes : Expr → List Expr
  | .op address opcode operand args => .op address opcode operand args :: argNodes args
  | .phi anchor incoming => .phi anchor incoming :: incomingNodes incoming

/-- All nodes of some operands. -/
def argNodes : List Expr → List Expr
  | [] => []
  | expr :: rest => nodes expr ++ argNodes rest

/-- All nodes of some merged values. -/
def incomingNodes : List (Address × Expr) → List Expr
  | [] => []
  | (_, value) :: rest => nodes value ++ incomingNodes rest

end

/-- The instruction that a node stands for. -/
def op? : Expr → Option Instruction
  | .op address opcode operand _ => some ⟨address, opcode, operand⟩
  | .phi _ _ => none

/-- The instructions of an expression. -/
def ops (expr : Expr) : List Instruction :=
  expr.nodes.filterMap op?

/-- The instructions of an expression that are operands in it. -/
def operandOps (expr : Expr) : List Instruction :=
  expr.nodes.tail.filterMap op?

/-- The instruction whose value was on the stack that was followed. -/
def producer : Expr → Address
  | .op address _ _ _ => address
  | .phi anchor incoming => (incoming.getLast?.map fun entry => entry.2.address).getD anchor

/-- An instruction node has as many operands as the instruction pops, and their
producers precede each other and the instruction.  A merge has values, all of them
of instructions. -/
def WellFormed : Expr → Prop
  | .op address opcode operand args =>
    args.length = (Instruction.mk address opcode operand).pops ∧
      (args.map producer ++ [address]).Pairwise (· < ·)
  | .phi _ incoming => incoming ≠ [] ∧ ∀ entry ∈ incoming, entry.2.op?.isSome = true

theorem argNodes_eq_flatMap (args : List Expr) : argNodes args = args.flatMap nodes := by
  induction args with
  | nil => rfl
  | cons expr rest ih => rw [argNodes, ih, List.flatMap_cons]

theorem incomingNodes_eq_flatMap (incoming : List (Address × Expr)) :
    incomingNodes incoming = (incoming.map Prod.snd).flatMap nodes := by
  induction incoming with
  | nil => rfl
  | cons entry rest ih => rw [incomingNodes, ih, List.map_cons, List.flatMap_cons]

theorem nodes_op (address : Address) (opcode : Opcode) (operand : Operand)
    (args : List Expr) :
    (Expr.op address opcode operand args).nodes =
      .op address opcode operand args :: args.flatMap nodes := by
  rw [nodes, argNodes_eq_flatMap]

theorem nodes_phi (anchor : Address) (incoming : List (Address × Expr)) :
    (Expr.phi anchor incoming).nodes =
      .phi anchor incoming :: (incoming.map Prod.snd).flatMap nodes := by
  rw [nodes, incomingNodes_eq_flatMap]

theorem mem_nodes_self (expr : Expr) : expr ∈ expr.nodes := by
  cases expr with
  | op address opcode operand args =>
      rw [nodes_op]
      exact List.mem_cons_self
  | phi anchor incoming =>
      rw [nodes_phi]
      exact List.mem_cons_self

mutual

/-- The nodes of a node are nodes of the tree. -/
theorem nodes_subset_of_mem : ∀ (expr : Expr) {node : Expr}, node ∈ nodes expr →
    nodes node ⊆ nodes expr
  | .op address opcode operand args, node, hnode => by
      rw [nodes, List.mem_cons] at hnode
      rcases hnode with rfl | hnode
      · exact List.Subset.refl _
      · rw [nodes.eq_def (.op address opcode operand args)]
        exact List.subset_cons_of_subset _ (nodes_subset_of_mem_args args hnode)
  | .phi anchor incoming, node, hnode => by
      rw [nodes, List.mem_cons] at hnode
      rcases hnode with rfl | hnode
      · exact List.Subset.refl _
      · rw [nodes.eq_def (.phi anchor incoming)]
        exact List.subset_cons_of_subset _ (nodes_subset_of_mem_incoming incoming hnode)

theorem nodes_subset_of_mem_args : ∀ (args : List Expr) {node : Expr},
    node ∈ argNodes args → nodes node ⊆ argNodes args
  | [], _, hnode => by cases hnode
  | expr :: rest, _, hnode => by
      rw [argNodes, List.mem_append] at hnode
      rw [argNodes]
      rcases hnode with hnode | hnode
      · exact List.subset_append_of_subset_left _ (nodes_subset_of_mem expr hnode)
      · exact List.subset_append_of_subset_right _ (nodes_subset_of_mem_args rest hnode)

theorem nodes_subset_of_mem_incoming : ∀ (incoming : List (Address × Expr)) {node : Expr},
    node ∈ incomingNodes incoming → nodes node ⊆ incomingNodes incoming
  | [], _, hnode => by cases hnode
  | (_, value) :: rest, _, hnode => by
      rw [incomingNodes, List.mem_append] at hnode
      rw [incomingNodes]
      rcases hnode with hnode | hnode
      · exact List.subset_append_of_subset_left _ (nodes_subset_of_mem value hnode)
      · exact List.subset_append_of_subset_right _ (nodes_subset_of_mem_incoming rest hnode)

end

theorem ops_op (address : Address) (opcode : Opcode) (operand : Operand)
    (args : List Expr) :
    (Expr.op address opcode operand args).ops =
      ⟨address, opcode, operand⟩ :: args.flatMap ops := by
  rw [ops, nodes_op, List.filterMap_cons, List.filterMap_flatMap]
  rfl

theorem ops_phi (anchor : Address) (incoming : List (Address × Expr)) :
    (Expr.phi anchor incoming).ops = (incoming.map Prod.snd).flatMap ops := by
  rw [ops, nodes_phi, List.filterMap_cons, List.filterMap_flatMap]
  rfl

theorem op?_toList_append_operandOps (expr : Expr) :
    expr.op?.toList ++ expr.operandOps = expr.ops := by
  cases expr with
  | op address opcode operand args =>
      rw [ops_op, operandOps, nodes_op, List.tail_cons, List.filterMap_flatMap]
      rfl
  | phi anchor incoming =>
      rw [ops_phi, operandOps, nodes_phi, List.tail_cons, List.filterMap_flatMap]
      rfl

theorem address_of_op? {expr : Expr} {instruction : Instruction}
    (hop : expr.op? = some instruction) : expr.address = instruction.address := by
  cases expr with
  | op address opcode operand args =>
      rw [op?, Option.some.injEq] at hop
      rw [← hop]
      rfl
  | phi anchor incoming => cases hop

theorem producer_of_op? {expr : Expr} {instruction : Instruction}
    (hop : expr.op? = some instruction) : expr.producer = instruction.address := by
  cases expr with
  | op address opcode operand args =>
      rw [op?, Option.some.injEq] at hop
      rw [← hop]
      rfl
  | phi anchor incoming => cases hop

end StackLift.Expr
