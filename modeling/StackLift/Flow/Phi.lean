import StackLift.Code.Address

/-!
# Phi sets

Where paths come together, a slot of the stack may hold another value for each
path. A phi set lists these alternatives, each with the label of the block that
produces it.
-/

namespace StackLift

/-- A value that a slot may hold, and the label of the block that produces it. -/
structure Alternative where
  value : Address
  label : Address
  deriving DecidableEq, Repr

/-- The alternatives of one slot, in the order in which they were met. -/
structure Phi where
  alternatives : List Alternative
  deriving DecidableEq, Repr

namespace Phi

def empty : Phi := ⟨[]⟩

def add (phi : Phi) (value label : Address) : Phi :=
  ⟨phi.alternatives ++ [⟨value, label⟩]⟩

def size (phi : Phi) : Nat :=
  phi.alternatives.length

def isEmpty (phi : Phi) : Bool :=
  phi.alternatives.isEmpty

def values (phi : Phi) : List Address :=
  phi.alternatives.map Alternative.value

def labels (phi : Phi) : List Address :=
  phi.alternatives.map Alternative.label

/-- The value with the greatest address. Its path is the last to come together with
the others, so the instruction after it consumes the slot. -/
def anchor? (phi : Phi) : Option Address :=
  phi.values.max?

@[simp]
theorem values_add (phi : Phi) (value label : Address) :
    (phi.add value label).values = phi.values ++ [value] := by
  simp [values, add]

@[simp]
theorem labels_add (phi : Phi) (value label : Address) :
    (phi.add value label).labels = phi.labels ++ [label] := by
  simp [labels, add]

theorem length_labels (phi : Phi) : phi.labels.length = phi.values.length := by
  simp [labels, values]

/-- The anchor is a value, and no value lies after it. -/
theorem anchor?_eq_some_iff {phi : Phi} {anchor : Address} :
    phi.anchor? = some anchor ↔
      anchor ∈ phi.values ∧ ∀ value ∈ phi.values, value ≤ anchor :=
  List.max?_eq_some_iff

theorem anchor?_eq_none_iff {phi : Phi} : phi.anchor? = none ↔ phi.values = [] :=
  List.max?_eq_none_iff

end Phi

end StackLift
