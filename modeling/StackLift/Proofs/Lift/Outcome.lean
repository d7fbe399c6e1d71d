import Mathlib
import StackLift.Proofs.Lift.Draft

/-!
# What lifting a method gives

The walk over all instructions ends with an error of one of them or with a draft
that holds each instruction once.  At the end of the walk only the values that are
left over can be wrong: if there are none, then no slot is left over either.
-/

namespace StackLift

/-- Why a method is not lifted. -/
inductive LiftError.Stops (method : Method) : LiftError → Prop where
  | invalid (fault : Fault) (hfault : method.validate = .error fault) :
    Stops method (.invalid fault)
  | arises (instruction : Instruction) (error : LiftError)
    (hinstruction : instruction ∈ method.instructions.toList)
    (harises : Arises instruction.address error) : Stops method error
  | valuesLeft (values : List Address) (hvalues : values ≠ [])
    (hproduced : ∀ value ∈ values,
      value ∈ method.instructions.toList.map Instruction.address) :
    Stops method (.inconsistent method.endAddress (.valuesLeft values))

/-- Errors that guard against stacks, phi sets and expressions that do not fit each
other. -/
def LiftError.isDefensive : LiftError → Bool
  | .phiTaken _ | .unknownAddress _ => true
  | .inconsistent _ cause =>
    match cause with
    | .noConsumer _ | .noPhi | .alreadyConsumed _ | .slotsLeft _ _ => true
    | _ => false
  | _ => false

theorem LiftError.Stops.isDefensive_eq_false {method : Method} {error : LiftError}
    (hstops : error.Stops method) : error.isDefensive = false := by
  cases hstops with
  | invalid fault hfault => rfl
  | arises instruction error hinstruction harises => cases harises <;> rfl
  | valuesLeft values hvalues hproduced => rfl

theorem Listing.ofMethod_eq_error_iff {method : Method} {fault : Fault} :
    Listing.ofMethod method = .error fault ↔ method.validate = .error fault := by
  rw [Listing.ofMethod]
  cases method.validate with
  | error other => simp
  | ok _ => simp

/-- The walk over all instructions of a method, from its listing to the last draft. -/
structure Engine.Walks (engine : Engine) (method : Method) (listing : Listing)
    (walked : Engine) (draft : Draft) : Prop where
  listed : Listing.ofMethod method = .ok listing
  start : (Draft.start listing).HoldsVisited (.withMain engine.nextId) method.instructions.toList []
  visit : (Engine.withMain engine.nextId).visitAll (.start listing)
    method.instructions.toList = (walked, .ok draft)

namespace Engine.Walks

variable {engine walked : Engine} {method : Method} {listing : Listing} {draft : Draft}

theorem checked (hwalks : engine.Walks method listing walked draft) :
    Checked method.instructions.toList :=
  (Listing.ofMethod_eq_ok_iff.1 hwalks.listed).1

theorem holdsVisited (hwalks : engine.Walks method listing walked draft) :
    draft.HoldsVisited walked method.instructions.toList method.instructions.toList :=
  hwalks.start.of_visitAll hwalks.checked (List.append_nil _).symm hwalks.visit

theorem lift_eq (hwalks : engine.Walks method listing walked draft) :
    engine.lift method = (walked, draft.finish walked method) := by
  rw [Engine.lift, hwalks.listed]
  simp only [Engine.reset, hwalks.visit]

end Engine.Walks

/-- Lifting stops early, or it finishes a draft that holds each instruction once. -/
theorem Engine.lift_cases (engine : Engine) (method : Method) :
    (∃ error, (engine.lift method).2 = .error error ∧ error.Stops method) ∨
    ∃ listing walked draft, engine.Walks method listing walked draft := by
  cases hlisting : Listing.ofMethod method with
  | error fault =>
      left
      refine ⟨_, ?_, .invalid fault (Listing.ofMethod_eq_error_iff.1 hlisting)⟩
      rw [Engine.lift, hlisting]
  | ok listing =>
      have hcode := (Listing.ofMethod_eq_ok_iff.1 hlisting).1
      have hstart := Draft.holdsVisited_start (Listing.indexes_of_ofMethod hlisting)
        (Listing.phis_of_ofMethod hlisting) engine.nextId
      rcases hstart.visitAll hcode method.instructions.toList (List.append_nil _).symm with
        ⟨stopped, error, heq, instruction, hmem, harises⟩ | ⟨walked, draft, heq, _⟩
      · left
        refine ⟨error, ?_, .arises instruction error hmem harises⟩
        rw [Engine.lift, hlisting]
        simp only [Engine.reset, heq]
      · exact Or.inr ⟨listing, walked, draft, hlisting, hstart, heq⟩

/-- Where no value is left, no slot is: the lowest slot of a branch holds a value. -/
theorem Draft.HoldsVisited.isEmpty_of_pending {draft : Draft} {engine : Engine}
    {code visited : List Instruction} (hholds : draft.HoldsVisited engine code visited)
    (hpending : draft.pending = []) {branch : Branch} (hbranch : branch ∈ engine.branches) :
    branch.slots = [] := by
  have hvalues : engine.values = [] := by
    have hheld := hholds.held
    rw [hpending, List.map_nil, List.nil_perm] at hheld
    exact hheld
  by_contra hslots
  obtain ⟨producer, hbottom⟩ := hholds.tracks.grounded.exists_bottom hbranch hslots
  have hmem : producer ∈ engine.values :=
    List.mem_flatMap.2 ⟨branch, hbranch, List.mem_filterMap.2
      ⟨_, List.mem_of_mem_getLast? hbottom, rfl⟩⟩
  rw [hvalues] at hmem
  cases hmem

theorem Draft.HoldsVisited.finish_of_pending {draft : Draft} {engine : Engine}
    {code visited : List Instruction} (hholds : draft.HoldsVisited engine code visited)
    (hpending : draft.pending = []) (method : Method) :
    draft.finish engine method = .ok {
      name := method.displayName
      statements := placeLabels draft.listing.labels none draft.roots.reverse
      phis := draft.listing.phiTable
      labels := draft.listing.labels } := by
  have hnone : engine.branches.find? (fun branch => !branch.isEmpty) = none := by
    rw [List.find?_eq_none]
    intro branch hbranch
    simp [Branch.isEmpty, hholds.isEmpty_of_pending hpending hbranch]
  rw [Draft.finish, if_pos (by simpa using hpending)]
  simp only [hnone]

theorem Draft.HoldsVisited.finish {draft : Draft} {engine : Engine} {method : Method}
    (hholds : draft.HoldsVisited engine method.instructions.toList method.instructions.toList) :
    (∃ error, draft.finish engine method = .error error ∧ error.Stops method) ∨
    draft.pending = [] ∧ draft.finish engine method = .ok {
      name := method.displayName
      statements := placeLabels draft.listing.labels none draft.roots.reverse
      phis := draft.listing.phiTable
      labels := draft.listing.labels } := by
  by_cases hpending : draft.pending = []
  · exact Or.inr ⟨hpending, hholds.finish_of_pending hpending method⟩
  · left
    rw [Draft.finish, if_neg (by simpa using hpending)]
    refine ⟨_, rfl, .valuesLeft _ ?_ ?_⟩
    · simpa using hpending
    · intro value hvalue
      apply hholds.tracks.produced
      exact hholds.held.mem_iff.1 (List.mem_reverse.1 hvalue)

/-- Every error is a fault of the method, an error of one of its instructions, or
values that no instruction uses; the defensive errors are out of reach. -/
theorem Engine.stops_of_lift_eq_error (engine : Engine) (method : Method)
    (error : LiftError) (herror : (engine.lift method).2 = .error error) :
    error.Stops method ∧ error.isDefensive = false := by
  suffices hstops : error.Stops method from ⟨hstops, hstops.isDefensive_eq_false⟩
  rcases engine.lift_cases method with
    ⟨other, heq, hstops⟩ | ⟨listing, walked, draft, hwalks⟩
  · rw [heq] at herror
    cases herror
    exact hstops
  · rw [hwalks.lift_eq] at herror
    rcases hwalks.holdsVisited.finish with ⟨other, hfinish, hstops⟩ | ⟨_, hfinish⟩
    · rw [hfinish] at herror
      cases herror
      exact hstops
    · rw [hfinish] at herror
      cases herror

/-- Stores one of two constants, but one of the two arms puts another value below. -/
def Method.unevenArms : Method where
  name := "unevenArms"
  instructions := #[.ldarg ⟨0⟩ 0, .jump ⟨1⟩ .brfalse ⟨5⟩, .ldc ⟨2⟩ 1, .ldc ⟨3⟩ 2,
    .jump ⟨4⟩ .br ⟨6⟩, .ldc ⟨5⟩ 3, .stloc ⟨6⟩ 0, ⟨⟨7⟩, .retVoid, .absent⟩]

theorem Engine.lift_unevenArms :
    (Engine.new.lift Method.unevenArms).2 =
      .error (.inconsistent ⟨7⟩ (.valuesLeft [⟨2⟩])) := by
  cbv

/-- The arms are merged for the store, and the value below is left over at the end. -/
theorem Engine.stops_of_lift_unevenArms :
    (Engine.new.lift Method.unevenArms).2 =
        .error (.inconsistent ⟨7⟩ (.valuesLeft [⟨2⟩])) ∧
      (LiftError.inconsistent ⟨7⟩ (.valuesLeft [⟨2⟩])).Stops Method.unevenArms ∧
      (LiftError.inconsistent ⟨7⟩ (.valuesLeft [⟨2⟩])).isDefensive = false :=
  ⟨Engine.lift_unevenArms, Engine.stops_of_lift_eq_error _ _ _ Engine.lift_unevenArms⟩

@[simp]
theorem map_expr_placeLabels (labels : List Address) (previous : Option Address)
    (roots : List Expr) : (placeLabels labels previous roots).map Statement.expr = roots := by
  induction roots generalizing previous with
  | nil => rfl
  | cons expr rest ih => rw [placeLabels, List.map_cons, ih]

/-- The operands in trees are the instructions that are no root. -/
theorem Expr.operandOps_perm {roots : List Expr} {code : List Instruction}
    (hops : (roots.flatMap ops).Perm code)
    (hroots : roots.map op? = (code.filter fun instruction => instruction.pushes = 0).map some) :
    (roots.flatMap operandOps).Perm (code.filter fun instruction => instruction.pushes ≠ 0) := by
  have hsplit : (roots.flatMap fun root => root.op?.toList ++ root.operandOps).Perm
      (roots.flatMap (fun root => root.op?.toList) ++ roots.flatMap operandOps) :=
    (List.flatMap_append_perm roots _ _).symm
  have htops : roots.flatMap (fun root => root.op?.toList) =
      code.filter fun instruction => instruction.pushes = 0 := by
    have hmap : roots.flatMap (fun root => root.op?.toList) =
        (roots.map op?).flatMap Option.toList := by
      rw [List.flatMap_map]
    rw [hmap, hroots, List.flatMap_map]
    exact List.flatMap_singleton' _
  simp only [op?_toList_append_operandOps] at hsplit
  rw [htops] at hsplit
  have hparts := List.filter_append_perm (fun instruction => decide (instruction.pushes = 0)) code
  have hall := (hsplit.symm.trans hops).trans hparts.symm
  simpa using (List.perm_append_left_iff _).1 hall

/-- All nodes of the expressions of a lifted method. -/
def LiftedMethod.nodes (lifted : LiftedMethod) : List Expr :=
  (lifted.statements.map Statement.expr).flatMap Expr.nodes

/-- A lifted method is what the walk leaves, with no value left over. -/
theorem Engine.exists_walks_of_lift_eq_ok {engine : Engine} {method : Method}
    {lifted : LiftedMethod} (hlifted : (engine.lift method).2 = .ok lifted) :
    ∃ listing walked draft, engine.Walks method listing walked draft ∧ draft.pending = [] ∧
      lifted = {
        name := method.displayName
        statements := placeLabels draft.listing.labels none draft.roots.reverse
        phis := draft.listing.phiTable
        labels := draft.listing.labels } := by
  rcases engine.lift_cases method with
    ⟨error, heq, _⟩ | ⟨listing, walked, draft, hwalks⟩
  · rw [heq] at hlifted
    cases hlifted
  · rw [hwalks.lift_eq] at hlifted
    rcases hwalks.holdsVisited.finish with ⟨error, hfinish, _⟩ | ⟨hpending, hfinish⟩
    · rw [hfinish] at hlifted
      cases hlifted
    · rw [hfinish] at hlifted
      cases hlifted
      exact ⟨listing, walked, draft, hwalks, hpending, rfl⟩

theorem Engine.lift_eq_ok {engine : Engine} {method : Method} {lifted : LiftedMethod}
    (hlifted : (engine.lift method).2 = .ok lifted) :
    ∃ listing walked draft, engine.Walks method listing walked draft ∧ draft.pending = [] ∧
      lifted.statements.map Statement.expr = draft.roots.reverse := by
  obtain ⟨listing, walked, draft, hwalks, hpending, rfl⟩ :=
    Engine.exists_walks_of_lift_eq_ok hlifted
  exact ⟨listing, walked, draft, hwalks, hpending, map_expr_placeLabels _ _ _⟩

theorem LiftedMethod.mem_nodes {lifted : LiftedMethod} {draft : Draft} {node : Expr}
    (hpending : draft.pending = [])
    (hroots : lifted.statements.map Statement.expr = draft.roots.reverse) :
    node ∈ lifted.nodes ↔ node ∈ draft.nodes := by
  rw [LiftedMethod.nodes, Draft.nodes, hroots, hpending, List.map_nil, List.nil_append]
  exact ((List.reverse_perm draft.roots).flatMap_right Expr.nodes).mem_iff

theorem LiftedMethod.ops_perm {engine : Engine} {method : Method} {lifted : LiftedMethod}
    (hlifted : (engine.lift method).2 = .ok lifted) :
    (lifted.nodes.filterMap Expr.op?).Perm method.instructions.toList := by
  obtain ⟨listing, walked, draft, hwalks, hpending, hroots⟩ := Engine.lift_eq_ok hlifted
  have hops := hwalks.holdsVisited.ops
  rw [hpending, List.map_nil, List.nil_append] at hops
  rw [nodes, hroots, List.filterMap_flatMap]
  exact ((List.reverse_perm draft.roots).flatMap_right Expr.ops).trans hops

theorem LiftedMethod.wellFormed {engine : Engine} {method : Method} {lifted : LiftedMethod}
    (hlifted : (engine.lift method).2 = .ok lifted) {node : Expr} (hnode : node ∈ lifted.nodes) :
    node.WellFormed := by
  obtain ⟨listing, walked, draft, hwalks, hpending, hroots⟩ := Engine.lift_eq_ok hlifted
  rw [mem_nodes hpending hroots] at hnode
  exact hwalks.holdsVisited.wellFormed node hnode

/-- A lifted method has each instruction once: those that leave nothing on the stack
as statements in order, all others as operands. -/
theorem Engine.linear_of_lift_eq_ok (engine : Engine) (method : Method)
    (lifted : LiftedMethod) (hlifted : (engine.lift method).2 = .ok lifted) :
    ((lifted.statements.map Statement.expr).flatMap Expr.ops).Perm
        method.instructions.toList ∧
      (lifted.statements.map Statement.expr).map Expr.op? =
        (method.instructions.toList.filter fun instruction => instruction.pushes = 0).map some ∧
      ((lifted.statements.map Statement.expr).flatMap Expr.operandOps).Perm
        (method.instructions.toList.filter fun instruction => instruction.pushes ≠ 0) ∧
      ∀ statement ∈ lifted.statements, ∀ node ∈ statement.expr.nodes, node.WellFormed := by
  have hops := LiftedMethod.ops_perm hlifted
  rw [LiftedMethod.nodes, List.filterMap_flatMap] at hops
  have hroots : (lifted.statements.map Statement.expr).map Expr.op? =
      (method.instructions.toList.filter fun instruction => instruction.pushes = 0).map some := by
    obtain ⟨listing, walked, draft, hwalks, _, hroots⟩ := Engine.lift_eq_ok hlifted
    rw [hroots]
    exact hwalks.holdsVisited.roots
  refine ⟨hops, hroots, Expr.operandOps_perm hops hroots, ?_⟩
  intro statement hstatement node hnode
  exact LiftedMethod.wellFormed hlifted
    (List.mem_flatMap.2 ⟨_, List.mem_map_of_mem hstatement, hnode⟩)

/-- Stores one of two constants, as the argument says. -/
def Method.choice : Method where
  name := "choice"
  instructions := #[.ldarg ⟨0⟩ 0, .jump ⟨1⟩ .brfalse ⟨4⟩, .ldc ⟨2⟩ 1, .jump ⟨3⟩ .br ⟨5⟩,
    .ldc ⟨4⟩ 2, .stloc ⟨5⟩ 0, ⟨⟨6⟩, .retVoid, .absent⟩]

/-- Both constants are operands of the one store. -/
def LiftedMethod.choice : LiftedMethod where
  name := "choice"
  statements := [
    ⟨⟨1⟩, [], .op ⟨1⟩ .brfalse (.target ⟨4⟩) [.op ⟨0⟩ .ldarg (.argument 0) []]⟩,
    ⟨⟨3⟩, [⟨2⟩], .op ⟨3⟩ .br (.target ⟨5⟩) []⟩,
    ⟨⟨5⟩, [⟨4⟩, ⟨5⟩], .op ⟨5⟩ .stloc (.localVar 0) [.phi ⟨5⟩
      [(⟨4⟩, .op ⟨4⟩ .ldcI4 (.int32 2) []), (⟨2⟩, .op ⟨2⟩ .ldcI4 (.int32 1) [])]]⟩,
    ⟨⟨6⟩, [], .op ⟨6⟩ .retVoid .absent []⟩]
  phis := [(⟨5⟩, ⟨[⟨⟨4⟩, ⟨4⟩⟩, ⟨⟨2⟩, ⟨2⟩⟩]⟩)]
  labels := [⟨2⟩, ⟨4⟩, ⟨5⟩]

theorem Engine.lift_choice :
    (Engine.new.lift Method.choice).2 = .ok LiftedMethod.choice := by
  cbv

theorem Engine.linear_of_lift_choice :
    (Engine.new.lift Method.choice).2 = .ok LiftedMethod.choice ∧
      ((LiftedMethod.choice.statements.map Statement.expr).flatMap Expr.ops).Perm
        Method.choice.instructions.toList ∧
      (LiftedMethod.choice.statements.map Statement.expr).map Expr.op? =
        (Method.choice.instructions.toList.filter
          fun instruction => instruction.pushes = 0).map some ∧
      ((LiftedMethod.choice.statements.map Statement.expr).flatMap Expr.operandOps).Perm
        (Method.choice.instructions.toList.filter
          fun instruction => instruction.pushes ≠ 0) ∧
      ∀ statement ∈ LiftedMethod.choice.statements,
        ∀ node ∈ statement.expr.nodes, node.WellFormed :=
  ⟨Engine.lift_choice, Engine.linear_of_lift_eq_ok _ _ _ Engine.lift_choice⟩

end StackLift
