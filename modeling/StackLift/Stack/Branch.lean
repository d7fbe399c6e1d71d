import StackLift.Lift.Error

/-!
# Branches

A branch is one simulated evaluation stack. The main branch lasts for the whole
method. A forked branch follows one arm of a conditional up to the address where
the arm comes back together with the branch it was forked from, its root.
-/

namespace StackLift

/-- A place on a simulated stack: a value, named by its producer, or a hole where
the path of the branch has produced nothing. -/
inductive Slot where
  | value (producer : Address)
  | hole
  deriving DecidableEq, Repr

namespace Slot

def value? : Slot → Option Address
  | .value producer => some producer
  | .hole => none

def isHole : Slot → Bool
  | .value _ => false
  | .hole => true

end Slot

/-- One simulated evaluation stack. -/
structure Branch where
  id : BranchId
  /-- The address at which the branch ends. -/
  stop : Address
  /-- The branch from which this one was forked. -/
  root : Option BranchId
  /-- The slots, topmost first. -/
  slots : List Slot := []
  deriving DecidableEq, Repr

namespace Branch

/-- Whether the branch has ended when the walk is at an address. -/
def closedAt (branch : Branch) (cursor : Address) : Bool :=
  branch.stop ≤ cursor

def size (branch : Branch) : Nat :=
  branch.slots.length

def isEmpty (branch : Branch) : Bool :=
  branch.slots.isEmpty

def top? (branch : Branch) : Option Slot :=
  branch.slots.head?

def bottom? (branch : Branch) : Option Slot :=
  branch.slots.getLast?

def push (branch : Branch) (slot : Slot) : Branch :=
  { branch with slots := slot :: branch.slots }

def drop (branch : Branch) : Branch :=
  { branch with slots := branch.slots.tail }

def pop (branch : Branch) : Except LiftError (Slot × Branch) :=
  match branch.top? with
  | some slot => .ok (slot, branch.drop)
  | none => .error (.underflow branch.id none)

/-! Pushing and dropping leave all but the slots alone. -/

@[simp]
theorem id_push (branch : Branch) (slot : Slot) : (branch.push slot).id = branch.id := rfl

@[simp]
theorem stop_push (branch : Branch) (slot : Slot) : (branch.push slot).stop = branch.stop := rfl

@[simp]
theorem root_push (branch : Branch) (slot : Slot) : (branch.push slot).root = branch.root := rfl

@[simp]
theorem slots_push (branch : Branch) (slot : Slot) :
    (branch.push slot).slots = slot :: branch.slots := rfl

@[simp]
theorem id_drop (branch : Branch) : branch.drop.id = branch.id := rfl

@[simp]
theorem stop_drop (branch : Branch) : branch.drop.stop = branch.stop := rfl

@[simp]
theorem root_drop (branch : Branch) : branch.drop.root = branch.root := rfl

@[simp]
theorem slots_drop (branch : Branch) : branch.drop.slots = branch.slots.tail := rfl

@[simp]
theorem drop_push (branch : Branch) (slot : Slot) : (branch.push slot).drop = branch := rfl

/-- A branch gives back what was pushed last. -/
@[simp]
theorem pop_push (branch : Branch) (slot : Slot) :
    (branch.push slot).pop = .ok (slot, branch) := rfl

/-- Only an empty branch has nothing to give. -/
theorem pop_eq_error_iff {branch : Branch} {error : LiftError} :
    branch.pop = .error error ↔ branch.slots = [] ∧ error = .underflow branch.id none := by
  cases hslots : branch.slots with
  | nil => simp [pop, top?, hslots, eq_comm]
  | cons slot rest => simp [pop, top?, hslots]

end Branch

end StackLift
