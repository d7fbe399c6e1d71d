import StackLift.Proofs.Engine.Order

/-!
# Other numbers for the branches

An engine compares the numbers of branches and counts them on, but never looks at a
number as such.  If all numbers are raised by the same offset, then every operation does
the same as before, with raised numbers, and fails with the same errors, in which the
numbers of branches are raised as well.
-/

namespace StackLift

/-- The branch with its numbers raised. -/
def Branch.renumber (offset : Nat) (branch : Branch) : Branch :=
  { branch with id := branch.id + offset, root := branch.root.map (· + offset) }

/-- The cause with the number of the branch that it names raised. -/
def Inconsistency.renumber (offset : Nat) : Inconsistency → Inconsistency
  | .rootNotLive root => .rootNotLive (root + offset)
  | .slotsLeft branch count => .slotsLeft (branch + offset) count
  | cause => cause

/-- The error with the number of the branch that it names raised. -/
def LiftError.renumber (offset : Nat) : LiftError → LiftError
  | .underflow branch address => .underflow (branch + offset) address
  | .inconsistent address cause => .inconsistent address (cause.renumber offset)
  | error => error

namespace Engine

/-- The engine with all numbers raised. -/
def renumber (offset : Nat) (engine : Engine) : Engine where
  branches := engine.branches.map (Branch.renumber offset)
  cursor := engine.cursor
  main := engine.main + offset
  active := engine.active + offset
  nextId := engine.nextId + offset

theorem withMain_renumber (id : BranchId) (offset : Nat) :
    (withMain id).renumber offset = withMain (id + offset) := by
  simp only [renumber, withMain, List.map_cons, List.map_nil, Branch.renumber, Option.map_none,
    Nat.add_right_comm]

variable (offset : Nat)

/-! ## Looking up branches -/

theorem beq_offset (left right : BranchId) :
    (left + offset == right + offset) = (left == right) := by
  rw [Bool.eq_iff_iff, beq_iff_eq, beq_iff_eq, Nat.add_right_cancel_iff]

theorem contains_offset (ids : List BranchId) (id : BranchId) :
    (ids.map (· + offset)).contains (id + offset) = ids.contains id := by
  have hinjective : Function.Injective (· + offset) := fun _ _ heq => Nat.add_right_cancel heq
  rw [Bool.eq_iff_iff, List.contains_iff_mem, List.contains_iff_mem,
    List.mem_map_of_injective hinjective]

theorem rootD_renumber (engine : Engine) (branch : Branch) :
    (branch.renumber offset).root.getD (engine.renumber offset).main =
      branch.root.getD engine.main + offset := by
  cases hroot : branch.root with
  | none => simp only [Branch.renumber, renumber, hroot, Option.map_none, Option.getD_none]
  | some root => simp only [Branch.renumber, hroot, Option.map_some, Option.getD_some]

theorem id_eq_active_renumber (engine : Engine) (branch : Branch) :
    (branch.renumber offset).id = (engine.renumber offset).active ↔
      branch.id = engine.active :=
  Nat.add_right_cancel_iff

theorem branch?_renumber (engine : Engine) (id : BranchId) :
    (engine.renumber offset).branch? (id + offset) =
      (engine.branch? id).map (Branch.renumber offset) := by
  rw [branch?, branch?, renumber, List.find?_map]
  congr 2
  funext branch
  exact beq_offset offset branch.id id

theorem activeBranch?_renumber (engine : Engine) :
    (engine.renumber offset).activeBranch? =
      engine.activeBranch?.map (Branch.renumber offset) :=
  branch?_renumber offset engine engine.active

theorem rootsFrom_renumber (branches : List Branch) (id : BranchId) :
    rootsFrom (branches.map (Branch.renumber offset)) (id + offset) =
      (rootsFrom branches id).map (· + offset) := by
  induction branches generalizing id with
  | nil => rfl
  | cons branch older ih =>
      have hid : ((branch.renumber offset).id == id + offset) = (branch.id == id) :=
        beq_offset offset branch.id id
      rw [List.map_cons, rootsFrom, rootsFrom, hid]
      split
      · cases hroot : branch.root with
        | none => simp only [Branch.renumber, hroot, Option.map_none, List.map_cons, List.map_nil]
        | some root =>
            simp only [Branch.renumber, hroot, Option.map_some, List.map_cons]
            rw [← ih root]
      · exact ih id

theorem activeChain_renumber (engine : Engine) :
    (engine.renumber offset).activeChain = engine.activeChain.map (· + offset) := by
  rw [activeChain, activeChain, ← rootsFrom_renumber, List.map_reverse]
  rfl

theorem collect_renumber (engine : Engine) :
    (engine.renumber offset).collect = engine.collect.renumber offset := by
  have hkept : (engine.renumber offset).collect.branches =
      engine.collect.branches.map (Branch.renumber offset) := by
    rw [collect, collect, activeChain_renumber]
    simp only [renumber, List.filter_map]
    congr 2
    funext branch
    simp only [Function.comp_apply, Branch.renumber, contains_offset]
    rfl
  calc
    (engine.renumber offset).collect =
        { engine.renumber offset with branches := (engine.renumber offset).collect.branches } :=
      rfl
    _ = engine.collect.renumber offset := by rw [hkept]; rfl

/-! ## Walking on -/

theorem switchTo_renumber (engine : Engine) (id : BranchId) :
    (engine.renumber offset).switchTo (id + offset) =
      Prod.map (renumber offset) (Except.mapError (LiftError.renumber offset))
        (engine.switchTo id) := by
  rw [switchTo, switchTo, branch?_renumber]
  cases engine.branch? id with
  | none => rfl
  | some branch => rfl

theorem ending?_renumber (engine : Engine) (address : Address) :
    (engine.renumber offset).ending? address =
      (engine.ending? address).map (Branch.renumber offset) := by
  have hchain : ((engine.renumber offset).branches.find? fun branch =>
      (engine.renumber offset).activeChain.contains branch.id && branch.stop == address) =
      (engine.branches.find? fun branch =>
        engine.activeChain.contains branch.id && branch.stop == address).map
          (Branch.renumber offset) := by
    rw [activeChain_renumber, renumber, List.find?_map]
    congr 2
    funext branch
    simp only [Function.comp_apply, Branch.renumber, contains_offset]
  have hany : ((engine.renumber offset).branches.find? fun branch => branch.stop == address) =
      (engine.branches.find? fun branch => branch.stop == address).map
        (Branch.renumber offset) := by
    rw [renumber, List.find?_map]
    rfl
  rw [ending?, ending?]
  simp only [hchain, hany]
  cases engine.branches.find? fun branch =>
      engine.activeChain.contains branch.id && branch.stop == address with
  | none => rfl
  | some branch => rfl

theorem advance_renumber (engine : Engine) (address : Address) :
    (engine.renumber offset).advance address =
      Prod.map (renumber offset) (Except.mapError (LiftError.renumber offset))
        (engine.advance address) := by
  have hmoved : ({ engine.renumber offset with cursor := address } : Engine).collect =
      ({ engine with cursor := address } : Engine).collect.renumber offset :=
    collect_renumber offset { engine with cursor := address }
  simp only [advance, hmoved]
  generalize ({ engine with cursor := address } : Engine).collect = moved
  have hclosed : ((moved.renumber offset).activeBranch?.any fun branch =>
      branch.closedAt address) = moved.activeBranch?.any fun branch => branch.closedAt address := by
    rw [activeBranch?_renumber, Option.any_map]
    rfl
  rw [hclosed, ending?_renumber]
  split
  · cases moved.ending? address with
    | none => rfl
    | some branch =>
        simp only [Option.map_some, rootD_renumber, switchTo_renumber]
        rcases hswitch : moved.switchTo (branch.root.getD moved.main) with ⟨switched, result⟩
        cases result with
        | error error => rfl
        | ok done =>
            simp only [Prod.map, Except.mapError, collect_renumber]
  · rfl

/-! ## Pushing and popping -/

theorem leadsToActive_renumber (engine : Engine) (branches : List Branch) (id : BranchId) :
    (engine.renumber offset).leadsToActive (branches.map (Branch.renumber offset))
        (id + offset) = engine.leadsToActive branches id := by
  have hactive : ∀ id, (id + offset == (engine.renumber offset).active) = (id == engine.active) :=
    fun id => beq_offset offset id engine.active
  have hmain : ∀ id, (id + offset != (engine.renumber offset).main) = (id != engine.main) :=
    fun id => congrArg not (beq_offset offset id engine.main)
  induction branches generalizing id with
  | nil => exact hactive id
  | cons branch older ih =>
      have hid : ((branch.renumber offset).id == id + offset) = (branch.id == id) :=
        beq_offset offset branch.id id
      rw [List.map_cons, leadsToActive, leadsToActive, hactive, hmain, hid, rootD_renumber, ih,
        ih]
      rfl

theorem isMerging_renumber (engine : Engine) (branch : Branch) :
    (engine.renumber offset).isMerging (branch.renumber offset) = engine.isMerging branch := by
  have hactive : ((branch.renumber offset).id != (engine.renumber offset).active) =
      (branch.id != engine.active) := congrArg not (beq_offset offset branch.id engine.active)
  have hbranches : (engine.renumber offset).branches.reverse =
      engine.branches.reverse.map (Branch.renumber offset) := List.map_reverse.symm
  rw [isMerging, isMerging, hactive, rootD_renumber, hbranches, leadsToActive_renumber]
  rfl

theorem mapSlots_renumber (engine : Engine) {raised slots : Branch → List Slot}
    (hslots : ∀ branch, raised (branch.renumber offset) = slots branch) :
    (engine.renumber offset).mapSlots raised = (engine.mapSlots slots).renumber offset := by
  simp only [mapSlots, renumber, List.map_map]
  congr 2
  funext branch
  simp only [Function.comp_apply, hslots]
  rfl

theorem push_renumber (engine : Engine) (address : Address) :
    (engine.renumber offset).push address = (engine.push address).renumber offset := by
  rw [push_eq_mapSlots, push_eq_mapSlots]
  apply mapSlots_renumber
  intro branch
  simp only [pushedSlots, id_eq_active_renumber, isMerging_renumber]
  rfl

theorem dropTop_renumber (engine : Engine) :
    (engine.renumber offset).dropTop = engine.dropTop.renumber offset := by
  rw [dropTop_eq_mapSlots, dropTop_eq_mapSlots]
  apply mapSlots_renumber
  intro branch
  simp only [droppedSlots, id_eq_active_renumber, isMerging_renumber]
  rfl

theorem mergingTops_renumber (engine : Engine) :
    (engine.renumber offset).mergingTops = engine.mergingTops := by
  have hbranches : (engine.renumber offset).branches =
      engine.branches.map (Branch.renumber offset) := rfl
  rw [mergingTops, mergingTops, hbranches, List.filterMap_map]
  congr 1
  funext branch
  simp only [Function.comp_apply, isMerging_renumber]
  rfl

theorem renumber_of_attach {listing : Listing} {consumer : Address} {phi : Phi}
    {error : LiftError} (hattach : listing.attach consumer phi = .error error) :
    error.renumber offset = error := by
  rw [Listing.attach] at hattach
  split at hattach
  · cases hattach
    rfl
  · split at hattach
    · cases hattach
      rfl
    · cases hattach

/-- Merging values names no branch. -/
theorem renumber_of_mergeValues {cursor : Address} {listing merged : Listing}
    {values : List Address} {error : LiftError}
    (hmerge : mergeValues cursor listing values = (merged, .error error)) :
    error.renumber offset = error := by
  simp only [mergeValues] at hmerge
  split at hmerge
  · cases hmerge
  · split at hmerge
    · cases hmerge
      rfl
    · split at hmerge
      · cases hmerge
      · next hattach =>
        cases hmerge
        exact renumber_of_attach offset hattach

theorem pop_renumber (engine : Engine) (listing : Listing) :
    (engine.renumber offset).pop listing =
      Prod.map (renumber offset) (Prod.map id (Except.mapError (LiftError.renumber offset)))
        (engine.pop listing) := by
  have htop : (engine.renumber offset).activeBranch?.bind Branch.top? =
      engine.activeBranch?.bind Branch.top? := by
    rw [activeBranch?_renumber, Option.bind_map]
    rfl
  simp only [pop, htop, mergingTops_renumber, dropTop_renumber, collect_renumber]
  split
  · rfl
  · split
    · rfl
    · have hcursor : (engine.renumber offset).cursor = engine.cursor := rfl
      rw [hcursor]
      split
      · rfl
      · next merged error hmerge =>
        simp only [Prod.map, Except.mapError, renumber_of_mergeValues offset hmerge, id_eq]

/-! ## Forking -/

theorem fork_renumber (engine : Engine) (stop : Address) :
    (engine.renumber offset).fork stop = (engine.fork stop).renumber offset := by
  simp only [fork, renumber, List.map_append, List.map_cons, List.map_nil, Branch.renumber,
    Option.map_some, Nat.add_right_comm]

theorem forkAt_renumber (engine : Engine) (listing : Listing) (address : Address) :
    (engine.renumber offset).forkAt listing address =
      (engine.forkAt listing address).renumber offset := by
  rw [forkAt, forkAt]
  split
  · exact fork_renumber offset engine _
  · rfl

end Engine

end StackLift
