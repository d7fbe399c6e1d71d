import StackLift.Code.Method

/-!
# Why lifting stops

A method is lifted completely or not at all. The errors name what was met first:
a method that breaks its contract, a pop from an empty stack, or control flow
whose stacks cannot be brought together.
-/

namespace StackLift

/-- Number of a branch of the simulated stack. Numbers are given in the order in
which branches are created and never twice by one engine. -/
abbrev BranchId := Nat

def BranchId.text (id : BranchId) : String :=
  "branch#" ++ Nat.repr id

/-- Why the stacks of a method cannot be brought together. -/
inductive Inconsistency where
  | rootNotLive (root : BranchId)
  | noConsumer (source : Address)
  | noValue
  | noPhi
  | alreadyConsumed (value : Address)
  | valuesLeft (values : List Address)
  | slotsLeft (branch : BranchId) (count : Nat)
  | stated (reason : String)
  deriving DecidableEq, Repr

def Inconsistency.reason : Inconsistency → String
  | .rootNotLive root => "root " ++ root.text ++ " of the merging branch is no longer live"
  | .noConsumer source => "phi source " ++ source.text ++ " has no consumer"
  | .noValue => "operand taken from a path that produced no value"
  | .noPhi => "missing phi annotation"
  | .alreadyConsumed value => "value of " ++ value.text ++ " was already consumed"
  | .valuesLeft values =>
    "values left on the stack: " ++ Text.commaSeparated (values.map Address.text)
  | .slotsLeft branch count =>
    branch.text ++ " still holds " ++ Nat.repr count ++ " slot(s)"
  | .stated reason => reason

/-- Why lifting a method stops. -/
inductive LiftError where
  | underflow (branch : BranchId) (address : Option Address)
  | inconsistent (address : Address) (cause : Inconsistency)
  | phiTaken (consumer : Address)
  | unknownAddress (address : Address)
  | invalid (fault : Fault)
  deriving DecidableEq, Repr

namespace LiftError

def message : LiftError → String
  | .underflow branch none => "Stack underflow on " ++ branch.text
  | .underflow branch (some address) =>
    "Stack underflow on " ++ branch.text ++ " at " ++ address.text
  | .inconsistent address cause =>
    "Inconsistent fork state at " ++ address.text ++ ": " ++ cause.reason
  | .phiTaken consumer => "Phi annotation already attached at " ++ consumer.text
  | .unknownAddress address => "Unknown instruction address " ++ address.text
  | .invalid fault => fault.message

def address? : LiftError → Option Address
  | .underflow _ address => address
  | .inconsistent address _ => some address
  | .phiTaken consumer => some consumer
  | .unknownAddress address => some address
  | .invalid _ => none

/-- Supplies the address of an underflow that has none. -/
def locate (cursor : Address) : LiftError → LiftError
  | .underflow branch none => .underflow branch (some cursor)
  | error => error

end LiftError

end StackLift
