import StackLift.Proofs.Machine.Compiled
import StackLift.Proofs.Machine.Straight

/-!
# Recorded producers along all runs

A lifted method records for each operand the instructions that may have computed it.
The record is right on every run where no jump leads between the instructions and
the use, and in compiled programs it is right everywhere.  It may be wrong where a
value that was on the stack before a jump is used up on one of the paths only.
-/

namespace StackLift

/-- Every instruction has one node in a lifted method. -/
theorem LiftedMethod.eq_of_mem_nodes {engine : Engine} {method : Method}
    {lifted : LiftedMethod} (hlifted : (engine.lift method).2 = .ok lifted)
    {left right : Expr} (hleft : left ∈ lifted.nodes) (hright : right ∈ lifted.nodes)
    {first second : Instruction} (hfirst : left.op? = some first)
    (hsecond : right.op? = some second) (haddress : first.address = second.address) :
    left = right := by
  obtain ⟨listing, walked, draft, hwalks, _⟩ := Engine.lift_eq_ok hlifted
  have hops := ops_perm hlifted
  have hdistinct : (lifted.nodes.filterMap Expr.op?).Pairwise
      fun one other => one.address ≠ other.address := by
    rw [← List.pairwise_map (R := (· ≠ ·))]
    exact (hops.map Instruction.address).nodup_iff.2 hwalks.checked.nodup_address
  rw [List.pairwise_filterMap] at hdistinct
  have hsymm : Std.Symm fun one other : Expr => ∀ found, one.op? = some found →
      ∀ another, other.op? = some another → found.address ≠ another.address :=
    ⟨fun one other hdiffer found hfound another hanother heq =>
      hdiffer another hanother found hfound heq.symm⟩
  by_contra hne
  exact hdistinct.forall hleft hright hne first hfirst second hsecond haddress

theorem Machine.Reaches.exists_instruction {code : List Instruction} {state : Machine}
    (hreaches : Reaches code state) (hcode : Checked code) :
    ∃ instruction ∈ code, instruction.address = state.address := by
  cases hreaches with
  | start hfirst => exact ⟨_, hfirst ▸ List.mem_cons_self, rfl⟩
  | step _ hstep =>
      cases hstep with
      | jump stack hmem htarget => exact List.mem_map.1 (hcode.landing _ hmem _ htarget)
      | next stack hsplit hflow => exact ⟨_, by simp [hsplit], rfl⟩

/-- What is executed has a node, with as many operands as the instruction takes. -/
theorem Machine.exists_node {engine : Engine} {method : Method} {lifted : LiftedMethod}
    (hlifted : (engine.lift method).2 = .ok lifted) {state : Machine}
    (hreaches : Reaches method.instructions.toList state) :
    ∃ instruction ∈ method.instructions.toList, ∃ args, instruction.address = state.address ∧
      .op instruction.address instruction.opcode instruction.operand args ∈ lifted.nodes ∧
      args.length = instruction.pops := by
  obtain ⟨listing, walked, draft, hwalks, _⟩ := Engine.lift_eq_ok hlifted
  obtain ⟨instruction, hmem, haddress⟩ := hreaches.exists_instruction hwalks.checked
  obtain ⟨node, hnode, hop⟩ :=
    List.mem_filterMap.1 ((LiftedMethod.ops_perm hlifted).mem_iff.2 hmem)
  cases node with
  | op address opcode operand args =>
      rw [Expr.op?, Option.some.injEq] at hop
      subst hop
      exact ⟨_, hmem, args, haddress, hnode, (LiftedMethod.wellFormed hlifted hnode).1⟩
  | phi anchor incoming => cases hop

/-- Lifting a compiled program gives its statements. -/
theorem Program.statements_of_lift {engine : Engine} {program : Program} {name : String}
    {start : Nat} (hfits : program.Fits)
    (hbound : start + program.size ≤ Address.last.toNat) {lifted : LiftedMethod}
    (hlifted : (engine.lift (program.method name start)).2 = .ok lifted) :
    lifted.statements.map Statement.expr = program.statements start := by
  obtain ⟨listing, walked, draft, hwalks, hrebuilt⟩ := exists_walks engine name hfits hbound
  rw [hwalks.lift_eq, hwalks.holdsVisited.finish_of_pending hrebuilt.pending] at hlifted
  cases hlifted
  rw [map_expr_placeLabels, hrebuilt.roots]

theorem Matches.supplies {stack : List Address} {args : List Expr}
    {rest : List (List Address)}
    (hmatches : Matches stack ((args.map Expr.producers).reverse ++ rest)) :
    Machine.Supplies stack args := by
  obtain ⟨operands, below, rfl, htop, _⟩ := hmatches.split
  rw [Matches, ← List.map_reverse, List.forall₂_map_right_iff] at htop
  exact ⟨operands, below, rfl, htop⟩

/-- All that is recorded for a compiled program is right on every run. -/
theorem Program.supplies_of_reaches {engine : Engine} {program : Program} {name : String}
    {start : Nat} (hfits : program.Fits)
    (hbound : start + program.size ≤ Address.last.toNat) {lifted : LiftedMethod}
    (hlifted : (engine.lift (program.method name start)).2 = .ok lifted) {state : Machine}
    (hreaches : Machine.Reaches (program.code start) state) {opcode : Opcode}
    {operand : Operand} {args : List Expr}
    (hnode : .op state.address opcode operand args ∈ lifted.nodes) :
    Machine.Supplies state.stack args := by
  obtain ⟨offset, node, columns, hinside, haddress, hstack⟩ :=
    exists_inside_of_reaches hfits hbound hreaches
  obtain ⟨instruction, taken, rest, _, hoffset, rfl, rfl⟩ := hinside.exists_instruction hfits
  have hmem := hinside.mem_nodes
  rw [← statements_of_lift hfits hbound hlifted] at hmem
  have heq := LiftedMethod.eq_of_mem_nodes hlifted hnode hmem rfl rfl
    (haddress.trans hoffset.symm)
  rw [Expr.op.injEq] at heq
  rw [heq.2.2.2]
  exact hstack.supplies

/-- Each instruction that is executed has a node, and what it records is right on every
run: in each method for the operands that no jump leads between, and in compiled
programs for all operands. -/
theorem Machine.recorded_of_lift_eq_ok (engine : Engine) (method : Method)
    (lifted : LiftedMethod) (hlifted : (engine.lift method).2 = .ok lifted) (state : Machine)
    (hreaches : Reaches method.instructions.toList state) :
    (∃ instruction ∈ method.instructions.toList, ∃ args, instruction.address = state.address ∧
        .op instruction.address instruction.opcode instruction.operand args ∈ lifted.nodes ∧
        args.length = instruction.pops) ∧
      ∀ (opcode : Opcode) (operand : Operand) (args : List Expr),
        .op state.address opcode operand args ∈ lifted.nodes →
        (∀ (depth : Nat) (arg : Expr), args.reverse[depth]? = some arg →
          Straight method.instructions.toList arg.producer state.address →
          arg.producer ∈ arg.producers ∧ state.stack[depth]? = some arg.producer) ∧
        ∀ (program : Program) (name : String) (start : Nat),
          method = program.method name start → program.Fits →
          start + program.size ≤ Address.last.toNat → Supplies state.stack args := by
  refine ⟨exists_node hlifted hreaches, fun opcode operand args hnode =>
    ⟨fun depth arg => operand_of_straight hlifted hreaches hnode, ?_⟩⟩
  rintro program name start rfl hfits hbound
  exact Program.supplies_of_reaches hfits hbound hlifted hreaches hnode

/-- The program that stores one of two constants. -/
def Program.choice : Program :=
  [(0, .cond (.apply .ldarg (.argument 0) []) (.apply .ldcI4 (.int32 1) [])
    (.apply .ldcI4 (.int32 2) []))]

theorem Machine.reaches_choice_test :
    Reaches Method.choice.instructions.toList ⟨⟨1⟩, [⟨0⟩]⟩ :=
  .step (.start rfl) (.next [] (show _ = [] ++ _ :: _ :: _ from rfl) rfl)

theorem Machine.reaches_choice_store :
    Reaches Method.choice.instructions.toList ⟨⟨5⟩, [⟨4⟩]⟩ := by
  have hjump : Step Method.choice.instructions.toList ⟨⟨1⟩, [⟨0⟩]⟩ ⟨⟨4⟩, []⟩ :=
    .jump [⟨0⟩] (List.mem_cons_of_mem _ List.mem_cons_self) rfl
  have hnext : Step Method.choice.instructions.toList ⟨⟨4⟩, []⟩ ⟨⟨5⟩, [⟨4⟩]⟩ :=
    .next [] (show _ = [_, _, _, _] ++ _ :: _ :: _ from rfl) rfl
  exact .step (.step reaches_choice_test hjump) hnext

theorem Machine.straight_choice_test :
    Straight Method.choice.instructions.toList ⟨0⟩ ⟨1⟩ := by
  have hjumps : ∀ jump ∈ Method.choice.instructions.toList, ∀ target ∈ jump.jumpTarget?,
      (⟨1⟩ : Address) < target := by
    decide
  rintro target ⟨jump, hjump, htarget⟩ _
  exact hjumps jump hjump target htarget

/-- The test is not led around, and the store gets either constant. -/
theorem Machine.recorded_of_lift_choice :
    (Engine.new.lift Method.choice).2 = .ok LiftedMethod.choice ∧
      Reaches Method.choice.instructions.toList ⟨⟨1⟩, [⟨0⟩]⟩ ∧
      Straight Method.choice.instructions.toList ⟨0⟩ ⟨1⟩ ∧
      ([⟨0⟩] : List Address)[0]? = some ⟨0⟩ ∧
      Reaches Method.choice.instructions.toList ⟨⟨5⟩, [⟨4⟩]⟩ ∧
      Method.choice = Program.choice.method "choice" 0 ∧
      Supplies [⟨4⟩] [.phi ⟨5⟩
        [(⟨4⟩, .op ⟨4⟩ .ldcI4 (.int32 2) []), (⟨2⟩, .op ⟨2⟩ .ldcI4 (.int32 1) [])]] := by
  have htest := (recorded_of_lift_eq_ok Engine.new Method.choice LiftedMethod.choice
    Engine.lift_choice ⟨⟨1⟩, [⟨0⟩]⟩ reaches_choice_test).2 .brfalse (.target ⟨4⟩)
    [.op ⟨0⟩ .ldarg (.argument 0) []]
    (by simp [LiftedMethod.nodes, LiftedMethod.choice, Expr.nodes])
  have hstore := (recorded_of_lift_eq_ok Engine.new Method.choice LiftedMethod.choice
    Engine.lift_choice ⟨⟨5⟩, [⟨4⟩]⟩ reaches_choice_store).2 .stloc (.localVar 0)
    [.phi ⟨5⟩ [(⟨4⟩, .op ⟨4⟩ .ldcI4 (.int32 2) []), (⟨2⟩, .op ⟨2⟩ .ldcI4 (.int32 1) [])]]
    (by simp [LiftedMethod.nodes, LiftedMethod.choice, Expr.nodes])
  exact ⟨Engine.lift_choice, reaches_choice_test, straight_choice_test,
    (htest.1 0 _ rfl straight_choice_test).2, reaches_choice_store, rfl,
    hstore.2 Program.choice "choice" 0 rfl (by decide) (by decide)⟩

/-- Negates the first argument if the second one is true, and stores it. -/
def Method.negate : Method where
  name := "negate"
  instructions := #[.ldarg ⟨0⟩ 0, .ldarg ⟨1⟩ 1, .jump ⟨2⟩ .brfalse ⟨5⟩, ⟨⟨3⟩, .neg, .absent⟩,
    .jump ⟨4⟩ .br ⟨5⟩, .stloc ⟨5⟩ 0, ⟨⟨6⟩, .retVoid, .absent⟩]

/-- The store gets the negated argument, whatever the second one is. -/
def LiftedMethod.negate : LiftedMethod where
  name := "negate"
  statements := [
    ⟨⟨2⟩, [], .op ⟨2⟩ .brfalse (.target ⟨5⟩) [.op ⟨1⟩ .ldarg (.argument 1) []]⟩,
    ⟨⟨4⟩, [], .op ⟨4⟩ .br (.target ⟨5⟩) []⟩,
    ⟨⟨5⟩, [⟨5⟩], .op ⟨5⟩ .stloc (.localVar 0)
      [.op ⟨3⟩ .neg .absent [.op ⟨0⟩ .ldarg (.argument 0) []]]⟩,
    ⟨⟨6⟩, [], .op ⟨6⟩ .retVoid .absent []⟩]
  phis := []
  labels := [⟨5⟩]

theorem Machine.reaches_negate_store :
    Reaches Method.negate.instructions.toList ⟨⟨5⟩, [⟨0⟩]⟩ := by
  have hfirst : Step Method.negate.instructions.toList ⟨⟨0⟩, []⟩ ⟨⟨1⟩, [⟨0⟩]⟩ :=
    .next [] (show _ = [] ++ _ :: _ :: _ from rfl) rfl
  have hsecond : Step Method.negate.instructions.toList ⟨⟨1⟩, [⟨0⟩]⟩ ⟨⟨2⟩, [⟨1⟩, ⟨0⟩]⟩ :=
    .next [⟨0⟩] (show _ = [_] ++ _ :: _ :: _ from rfl) rfl
  have hjump : Step Method.negate.instructions.toList ⟨⟨2⟩, [⟨1⟩, ⟨0⟩]⟩ ⟨⟨5⟩, [⟨0⟩]⟩ :=
    .jump [⟨1⟩, ⟨0⟩] (List.mem_cons_of_mem _ (List.mem_cons_of_mem _ List.mem_cons_self)) rfl
  exact .step (.step (.step (.start rfl) hfirst) hsecond) hjump

/-- A value that was there before a jump and is used up on one of the paths only: the
lifted method records what that path computes, and the run along the other path stores
the value itself. -/
theorem Machine.not_supplies_negate :
    (Engine.new.lift Method.negate).2 = .ok LiftedMethod.negate ∧
      Reaches Method.negate.instructions.toList ⟨⟨5⟩, [⟨0⟩]⟩ ∧
      .op ⟨5⟩ .stloc (.localVar 0)
        [.op ⟨3⟩ .neg .absent [.op ⟨0⟩ .ldarg (.argument 0) []]] ∈ LiftedMethod.negate.nodes ∧
      ¬ Supplies [⟨0⟩] [.op ⟨3⟩ .neg .absent [.op ⟨0⟩ .ldarg (.argument 0) []]] := by
  refine ⟨by cbv, reaches_negate_store,
    by simp [LiftedMethod.nodes, LiftedMethod.negate, Expr.nodes], ?_⟩
  rintro ⟨operands, rest, hstack, hsupplied⟩
  obtain ⟨value, _, hvalue, hnil, rfl⟩ := List.forall₂_cons_right_iff.1 hsupplied
  rw [List.forall₂_nil_right_iff.1 hnil, List.cons_append, List.cons.injEq] at hstack
  rw [← hstack.1, Expr.producers, List.mem_singleton] at hvalue
  exact absurd hvalue (by decide)

end StackLift
