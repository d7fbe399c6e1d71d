import StackLift.Lift.Expr
import StackLift.Stack.Engine

/-!
# Lifting a method

The instructions of a method are walked in address order. Each takes its operands
from the engine. An instruction that leaves a value is kept until the value is
used; one that leaves nothing becomes a statement. A method is lifted only if all
values are used in the end.
-/

namespace StackLift

/-- Expressions whose values have not been used, with their addresses, last first. -/
abbrev Pending := List (Address × Expr)

namespace Pending

def take? (value : Address) : Pending → Option (Expr × Pending)
  | [] => none
  | entry :: rest =>
    if entry.1 = value then some (entry.2, rest)
    else
      match take? value rest with
      | some (expr, others) => some (expr, entry :: others)
      | none => none

def take (consumer value : Address) (pending : Pending) :
    Except LiftError (Expr × Pending) :=
  match take? value pending with
  | some taken => .ok taken
  | none => .error (.inconsistent consumer (.alreadyConsumed value))

def takeAlternatives (consumer : Address) :
    List Alternative → Pending → Except LiftError (List (Address × Expr) × Pending)
  | [], pending => .ok ([], pending)
  | alternative :: rest, pending =>
    match take consumer alternative.value pending with
    | .error error => .error error
    | .ok (expr, others) =>
      match takeAlternatives consumer rest others with
      | .error error => .error error
      | .ok (incoming, left) => .ok ((alternative.label, expr) :: incoming, left)

def takeMerge (listing : Listing) (consumer : Address) (pending : Pending) :
    Except LiftError (Expr × Pending) :=
  match listing.phiAt? consumer with
  | none => .error (.inconsistent consumer .noPhi)
  | some phi =>
    match takeAlternatives consumer phi.alternatives pending with
    | .error error => .error error
    | .ok (incoming, left) => .ok (.phi consumer incoming, left)

def takeSlot (listing : Listing) (consumer value : Address) (merge : Option Address)
    (pending : Pending) : Except LiftError (Expr × Pending) :=
  match merge with
  | some anchor => takeMerge listing anchor pending
  | none => take consumer value pending

/-- Takes out the operands of an instruction, given as slots: their producers and
their expressions, first operand first. -/
def takeOperands (listing : Listing) (consumer : Address) :
    List Popped → Pending → Except LiftError ((List Address × List Expr) × Pending)
  | [], pending => .ok (([], []), pending)
  | ⟨.hole, _⟩ :: _, _ => .error (.inconsistent consumer .noValue)
  | ⟨.value value, merge⟩ :: rest, pending =>
    match takeSlot listing consumer value merge pending with
    | .error error => .error error
    | .ok (expr, others) =>
      match takeOperands listing consumer rest others with
      | .error error => .error error
      | .ok ((producers, args), left) => .ok ((value :: producers, expr :: args), left)

end Pending

structure Draft where
  listing : Listing
  pending : Pending
  /-- Expressions of the statements, last first. -/
  roots : List Expr

namespace Draft

def start (listing : Listing) : Draft := ⟨listing, [], []⟩

/-- The draft with one more instruction, which waits for its consumer if it leaves a
value and is a statement otherwise. -/
def add (draft : Draft) (instruction : Instruction) (args : List Expr) : Draft :=
  let expr : Expr := .op instruction.address instruction.opcode instruction.operand args
  if 0 < instruction.pushes then
    { draft with pending := (instruction.address, expr) :: draft.pending }
  else { draft with roots := expr :: draft.roots }

end Draft

namespace Engine

/-- Takes a number of slots. The slot taken last is the first operand, so each slot
is put before those taken earlier. -/
def popSlots (engine : Engine) (listing : Listing) :
    Nat → List Popped → Engine × Listing × Except LiftError (List Popped)
  | 0, taken => (engine, listing, .ok taken)
  | count + 1, taken =>
    match engine.pop listing with
    | (popped, merged, .ok slot) => popSlots popped merged count (slot :: taken)
    | (popped, merged, .error error) => (popped, merged, .error error)

/-- Lifts one instruction. A jump forks after its operands were taken, since they
belong to the path on which it is executed. -/
def visit (engine : Engine) (draft : Draft) (instruction : Instruction) :
    Engine × Except LiftError Draft :=
  let address := instruction.address
  match engine.advance address with
  | (advanced, .error error) => (advanced, .error error)
  | (advanced, .ok ()) =>
    match advanced.popSlots draft.listing instruction.pops [] with
    | (popped, _, .error error) => (popped, .error error)
    | (popped, listing, .ok slots) =>
      let forked := popped.forkAt listing address
      match Pending.takeOperands listing address slots draft.pending with
      | .error error => (forked, .error error)
      | .ok ((producers, args), pending) =>
        match listing.setProducers address producers with
        | .error error => (forked, .error error)
        | .ok noted =>
          let pushed := if 0 < instruction.pushes then forked.push address else forked
          (pushed, .ok (Draft.add ⟨noted, pending, draft.roots⟩ instruction args))

def visitAll (engine : Engine) (draft : Draft) :
    List Instruction → Engine × Except LiftError Draft
  | [] => (engine, .ok draft)
  | instruction :: rest =>
    match engine.visit draft instruction with
    | (visited, .ok next) => visitAll visited next rest
    | (visited, .error error) => (visited, .error error)

end Engine

/-- Puts before each statement the labels from after the statement before it up to
its own address. -/
def placeLabels (labels : List Address) : Option Address → List Expr → List Statement
  | _, [] => []
  | previous, expr :: rest =>
    { address := expr.address
      labels := labels.filter fun label =>
        decide (label ≤ expr.address) && previous.all fun before => before < label
      expr } :: placeLabels labels (some expr.address) rest

/-- The address of the last instruction, where leftovers are reported. -/
def Method.endAddress (method : Method) : Address :=
  (method.instructions.back?.map Instruction.address).getD .zero

/-- The lifted method, if nothing is left over: neither values nor slots. -/
def Draft.finish (draft : Draft) (engine : Engine) (method : Method) :
    Except LiftError LiftedMethod :=
  if draft.pending.isEmpty then
    match engine.branches.find? fun branch => !branch.isEmpty with
    | some branch =>
      .error (.inconsistent method.endAddress (.slotsLeft branch.id branch.size))
    | none =>
      .ok {
        name := method.displayName
        statements := placeLabels draft.listing.labels none draft.roots.reverse
        phis := draft.listing.phiTable
        labels := draft.listing.labels }
  else
    .error (.inconsistent method.endAddress
      (.valuesLeft (draft.pending.map fun entry => entry.1).reverse))

/-- Lifts a method. The engine starts over first, so nothing of an earlier method
shows but the numbers of the branches. -/
def Engine.lift (engine : Engine) (method : Method) : Engine × Except LiftError LiftedMethod :=
  let fresh := engine.reset
  match Listing.ofMethod method with
  | .error fault => (fresh, .error (.invalid fault))
  | .ok listing =>
    match fresh.visitAll (.start listing) method.instructions.toList with
    | (walked, .error error) => (walked, .error error)
    | (walked, .ok draft) => (walked, draft.finish walked method)

end StackLift
