import StackLift.Code.Module
import StackLift.Lift.Walk

/-!
# Lifting a module

The methods of a module are lifted one after the other with one engine. A method
that fails does not keep the others from being lifted, unless the first failure
is asked to be the last. A report of all methods is printed as text or as JSON.
-/

namespace StackLift

/-- What became of a method. -/
structure MethodOutcome where
  name : String
  result : Except LiftError LiftedMethod

/-- What became of the methods of a module, in the order of the module. -/
structure Report where
  moduleName : String
  outcomes : List MethodOutcome

def liftMethods (failFast : Bool) (engine : Engine) : List Method → List MethodOutcome
  | [] => []
  | method :: rest =>
    match engine.lift method with
    | (used, .ok lifted) => ⟨method.displayName, .ok lifted⟩ :: liftMethods failFast used rest
    | (used, .error error) =>
      ⟨method.displayName, .error error⟩ ::
        if failFast then [] else liftMethods failFast used rest

namespace CodeModule

/-- Lifts the methods of a module, up to the first failure if `failFast` is set. -/
def lift (code : CodeModule) (failFast : Bool) : Report :=
  ⟨code.name, liftMethods failFast .new code.methods⟩

end CodeModule

namespace Report

def lifted (report : Report) : List LiftedMethod :=
  report.outcomes.filterMap fun outcome => outcome.result.toOption

def failures (report : Report) : List (String × LiftError) :=
  report.outcomes.filterMap fun outcome =>
    match outcome.result with
    | .ok _ => none
    | .error error => some (outcome.name, error)

def isSuccess (report : Report) : Bool :=
  report.failures.isEmpty

def phiCount (report : Report) : Nat :=
  (report.lifted.flatMap fun method => method.phis).length

end Report

/-! ## JSON forms of lifted methods -/

mutual

def Expr.toJson : Expr → Json
  | .op address opcode operand args =>
    .object
      [("Op", .object
        [("address", address.toJson), ("opcode", opcode.toJson), ("operand", operand.toJson),
          ("args", .array (Expr.argsToJson args))])]
  | .phi anchor incoming =>
    .object
      [("Phi", .object
        [("anchor", anchor.toJson), ("incoming", .array (Expr.incomingToJson incoming))])]

def Expr.argsToJson : List Expr → List Json
  | [] => []
  | expr :: rest => Expr.toJson expr :: Expr.argsToJson rest

def Expr.incomingToJson : List (Address × Expr) → List Json
  | [] => []
  | (label, value) :: rest =>
    .object [("label", label.toJson), ("value", Expr.toJson value)] :: Expr.incomingToJson rest

end

def Statement.toJson (statement : Statement) : Json :=
  .object
    [("address", statement.address.toJson),
      ("labels", .array (statement.labels.map Address.toJson)),
      ("expr", statement.expr.toJson)]

/-- A phi set is a record of two lists of the same length. -/
def Phi.toJson (phi : Phi) : Json :=
  .object
    [("values", .array (phi.values.map Address.toJson)),
      ("labels", .array (phi.labels.map Address.toJson))]

/-- The phi sets are members that are named by their consumers. -/
def LiftedMethod.toJson (method : LiftedMethod) : Json :=
  .object
    [("name", .string method.name),
      ("statements", .array (method.statements.map Statement.toJson)),
      ("phis", .object
        (method.phis.map fun entry => (Nat.repr entry.1.toNat, entry.2.toJson))),
      ("labels", .array (method.labels.map Address.toJson))]

/-! ## What is printed -/

namespace MethodOutcome

/-- The dump of a method, or the error that kept it from being lifted. -/
def text (outcome : MethodOutcome) : String :=
  match outcome.result with
  | .ok method => method.text
  | .error error => "method " ++ outcome.name ++ " failed: " ++ error.message

end MethodOutcome

namespace Report

/-- All methods, with a line of totals at the end. -/
def text (report : Report) : String :=
  String.join (report.outcomes.map fun outcome => outcome.text ++ "\n\n") ++
    report.moduleName ++ ": " ++ Nat.repr report.lifted.length ++ " translated, " ++
    Nat.repr report.failures.length ++ " failed, " ++ Nat.repr report.phiCount ++ " phi\n"

def failureToJson (failure : String × LiftError) : Json :=
  .object
    [("method", .string failure.1),
      ("address", failure.2.address?.elim .null Address.toJson),
      ("error", .string failure.2.message)]

def toJson (report : Report) : Json :=
  .object
    [("module", .string report.moduleName),
      ("methods", .array (report.lifted.map LiftedMethod.toJson)),
      ("failures", .array (report.failures.map failureToJson))]

end Report

end StackLift
