import StackLift.Flow.Listing
import StackLift.Stack.Branch

/-!
# The engine

The engine simulates the evaluation stack of a method while its instructions are
walked in address order. A forward jump to an address that other paths reach as
well forks a branch, and both arms then push onto a stack of their own. Where an
arm ends, the walk goes on with the branch it was forked from. A pop there that
finds values waiting on ended branches yields a phi set instead of picking one of
the values.

Forks and ends are told from addresses alone. This fits structured control flow;
what does not fit is reported as an inconsistency.
-/

namespace StackLift

/-- The simulated stacks of a method. -/
structure Engine where
  /-- The live branches, in the order of their creation. -/
  branches : List Branch
  /-- The address at which the walk is. -/
  cursor : Address
  /-- The branch that lasts for the whole method. -/
  main : BranchId
  /-- The branch that takes part in pushes and pops. -/
  active : BranchId
  nextId : BranchId
  deriving DecidableEq, Repr

structure Popped where
  slot : Slot
  /-- The consumer that got a phi set for this slot. -/
  merge : Option Address
  deriving DecidableEq, Repr

namespace Engine

/-- An engine with only a main branch, which takes the given number. -/
def withMain (id : BranchId) : Engine where
  branches := [{ id, stop := .last, root := none }]
  cursor := .zero
  main := id
  active := id
  nextId := id + 1

def new : Engine := withMain 0

/-- Drops all branches and starts over with a new main branch. -/
def reset (engine : Engine) : Engine := withMain engine.nextId

def branch? (engine : Engine) (id : BranchId) : Option Branch :=
  engine.branches.find? fun branch => branch.id == id

def activeBranch? (engine : Engine) : Option Branch :=
  engine.branch? engine.active

/-- The branches met on the way from a branch to its root, to the root's root, and
so on while they are live. A root is older than the branches forked from it, so
one pass over the branches, given newest first, meets them all. -/
def rootsFrom : List Branch → BranchId → List BranchId
  | [], _ => []
  | branch :: older, id =>
    if branch.id == id then
      match branch.root with
      | some root => id :: rootsFrom older root
      | none => [id]
    else rootsFrom older id

/-- The active branch and its live roots, innermost first. -/
def activeChain (engine : Engine) : List BranchId :=
  rootsFrom engine.branches.reverse engine.active

/-- Drops the branches that have ended and are empty, but none of the active chain. -/
def collect (engine : Engine) : Engine :=
  let chain := engine.activeChain
  { engine with
    branches := engine.branches.filter fun branch =>
      chain.contains branch.id || !(branch.closedAt engine.cursor && branch.isEmpty) }

def switchTo (engine : Engine) (id : BranchId) : Engine × Except LiftError Unit :=
  match engine.branch? id with
  | some _ => ({ engine with active := id }, .ok ())
  | none => (engine, .error (.inconsistent engine.cursor (.rootNotLive id)))

/-- The branch that ends at an address: the outermost of the active chain, or else
the oldest of all. -/
def ending? (engine : Engine) (address : Address) : Option Branch :=
  let chain := engine.activeChain
  match engine.branches.find? fun branch =>
      chain.contains branch.id && branch.stop == address with
  | some branch => some branch
  | none => engine.branches.find? fun branch => branch.stop == address

/-- Walks on to an address. If the active branch has ended there, the walk goes on
with the root of the branch that ends at this address. -/
def advance (engine : Engine) (address : Address) : Engine × Except LiftError Unit :=
  let moved := { engine with cursor := address }.collect
  if moved.activeBranch?.any fun branch => branch.closedAt address then
    match moved.ending? address with
    | some branch =>
      match moved.switchTo (branch.root.getD moved.main) with
      | (switched, .ok ()) => (switched.collect, .ok ())
      | (switched, .error error) => (switched, .error error)
    | none => (moved, .ok ())
  else (moved, .ok ())

/-- Whether a root leads to the active branch, directly or through roots that have
ended as well. A root that has not ended runs beside the active branch and is not
left. The branches are given newest first. -/
def leadsToActive (engine : Engine) : List Branch → BranchId → Bool
  | [], id => id == engine.active
  | branch :: older, id =>
    if id == engine.active then true
    else if branch.id == id then
      id != engine.main && branch.closedAt engine.cursor &&
        leadsToActive engine older (branch.root.getD engine.main)
    else leadsToActive engine older id

/-- Whether a branch has ended and comes back together with the active branch, so
that its stack runs beside the active one. -/
def isMerging (engine : Engine) (branch : Branch) : Bool :=
  branch.id != engine.active && branch.closedAt engine.cursor &&
    engine.leadsToActive engine.branches.reverse (branch.root.getD engine.main)

/-- Pushes the value of the instruction at an address. Merging branches get a hole,
so that slots of one depth stay side by side. -/
def push (engine : Engine) (address : Address) : Engine :=
  { engine with
    branches := engine.branches.map fun branch =>
      if branch.id == engine.active then branch.push (.value address)
      else if engine.isMerging branch then branch.push .hole
      else branch }

def dropTop (engine : Engine) : Engine :=
  { engine with
    branches := engine.branches.map fun branch =>
      if branch.id == engine.active || engine.isMerging branch then branch.drop else branch }

def mergingTops (engine : Engine) : List Slot :=
  engine.branches.filterMap fun branch =>
    if engine.isMerging branch then branch.top? else none

/-- Attaches the phi set of the given values to the instruction after the last of
them. -/
def mergeValues (cursor : Address) (listing : Listing) (values : List Address) :
    Listing × Except LiftError (Option Address) :=
  let (labelled, phi) := listing.gather values
  match phi.anchor? with
  | none => (labelled, .ok none)
  | some anchor =>
    match labelled.next? anchor with
    | none => (labelled, .error (.inconsistent cursor (.noConsumer anchor)))
    | some consumer =>
      match labelled.attach consumer phi with
      | .ok attached => (attached, .ok (some consumer))
      | .error error => (labelled, .error error)

/-- Takes a slot from the active branch, and one from each merging branch that has
one. The values among the latter, followed by the active one, form a phi set. -/
def pop (engine : Engine) (listing : Listing) : Engine × Listing × Except LiftError Popped :=
  match engine.activeBranch?.bind Branch.top? with
  | none => (engine, listing, .error (.underflow engine.active (some engine.cursor)))
  | some slot =>
    let dropped := engine.dropTop
    match engine.mergingTops with
    | [] => (dropped, listing, .ok ⟨slot, none⟩)
    | tops =>
      let waiting := tops.filterMap Slot.value?
      let values := if waiting.isEmpty then [] else waiting ++ slot.value?.toList
      match mergeValues engine.cursor listing values with
      | (merged, .ok consumer) => (dropped.collect, merged, .ok ⟨slot, consumer⟩)
      | (merged, .error error) => (dropped.collect, merged, .error error)

/-- Forks a branch that lasts until an address, and makes it active. -/
def fork (engine : Engine) (stop : Address) : Engine :=
  { engine with
    branches := engine.branches ++ [{ id := engine.nextId, stop, root := some engine.active }]
    active := engine.nextId
    nextId := engine.nextId + 1 }

/-- Whether a forward jump to `target` at an address parts two arms that come back
together at `target`. An unconditional jump does so if it ends an arm: the
instruction after it starts the other arm, to which a conditional jump leads. A
conditional jump does so if `target` is also reached from the instruction before
it. -/
def partsArms (listing : Listing) (jump : Instruction) (target : Address) : Bool :=
  match jump.flow with
  | .jump =>
    (listing.next? jump.address).any fun other =>
      ((listing.jumpsTo other).filterMap listing.instruction?).find? Instruction.isForwardJump
        |>.any fun first => first.opcode.isConditional
  | .conditional =>
    ((listing.previous? target).bind listing.instruction?).any fun previous =>
      !previous.flow.endsBlock
  | _ => false

/-- The end of the branch that the instruction at an address forks, if it forks one. -/
def forkTarget? (listing : Listing) (address : Address) : Option Address :=
  match listing.instruction? address with
  | some jump =>
    if jump.isForwardJump then jump.jumpTarget?.filter (partsArms listing jump) else none
  | none => none

def forkAt (engine : Engine) (listing : Listing) (address : Address) : Engine :=
  match forkTarget? listing address with
  | some target => engine.fork target
  | none => engine

/-! ## What the operations leave alone -/

@[simp]
theorem cursor_collect (engine : Engine) : engine.collect.cursor = engine.cursor := rfl

@[simp]
theorem main_collect (engine : Engine) : engine.collect.main = engine.main := rfl

@[simp]
theorem active_collect (engine : Engine) : engine.collect.active = engine.active := rfl

@[simp]
theorem nextId_collect (engine : Engine) : engine.collect.nextId = engine.nextId := rfl

/-- Collecting keeps the active chain and the branches that are open or not empty. -/
theorem mem_branches_collect {engine : Engine} {branch : Branch} :
    branch ∈ engine.collect.branches ↔
      branch ∈ engine.branches ∧
        (branch.id ∈ engine.activeChain ∨ engine.cursor < branch.stop ∨ branch.slots ≠ []) := by
  have hopen : ¬ branch.stop ≤ engine.cursor ↔ engine.cursor < branch.stop := by
    rw [Address.le_iff_toNat_le, Address.lt_iff_toNat_lt]
    omega
  rw [← hopen]
  simp [collect, Branch.closedAt, Branch.isEmpty]

@[simp]
theorem cursor_push (engine : Engine) (address : Address) :
    (engine.push address).cursor = engine.cursor := rfl

@[simp]
theorem main_push (engine : Engine) (address : Address) :
    (engine.push address).main = engine.main := rfl

@[simp]
theorem active_push (engine : Engine) (address : Address) :
    (engine.push address).active = engine.active := rfl

@[simp]
theorem nextId_push (engine : Engine) (address : Address) :
    (engine.push address).nextId = engine.nextId := rfl

@[simp]
theorem map_id_push (engine : Engine) (address : Address) :
    (engine.push address).branches.map Branch.id = engine.branches.map Branch.id := by
  simp only [push, List.map_map]
  apply List.map_congr_left
  intro branch _
  simp only [Function.comp_apply]
  split
  · rfl
  · split <;> rfl

@[simp]
theorem cursor_dropTop (engine : Engine) : engine.dropTop.cursor = engine.cursor := rfl

@[simp]
theorem main_dropTop (engine : Engine) : engine.dropTop.main = engine.main := rfl

@[simp]
theorem active_dropTop (engine : Engine) : engine.dropTop.active = engine.active := rfl

@[simp]
theorem nextId_dropTop (engine : Engine) : engine.dropTop.nextId = engine.nextId := rfl

@[simp]
theorem map_id_dropTop (engine : Engine) :
    engine.dropTop.branches.map Branch.id = engine.branches.map Branch.id := by
  simp only [dropTop, List.map_map]
  apply List.map_congr_left
  intro branch _
  simp only [Function.comp_apply]
  split <;> rfl

@[simp]
theorem cursor_fork (engine : Engine) (stop : Address) :
    (engine.fork stop).cursor = engine.cursor := rfl

@[simp]
theorem main_fork (engine : Engine) (stop : Address) :
    (engine.fork stop).main = engine.main := rfl

@[simp]
theorem active_fork (engine : Engine) (stop : Address) :
    (engine.fork stop).active = engine.nextId := rfl

@[simp]
theorem nextId_fork (engine : Engine) (stop : Address) :
    (engine.fork stop).nextId = engine.nextId + 1 := rfl

end Engine

end StackLift
