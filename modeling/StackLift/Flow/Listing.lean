import Std.Data.TreeMap
import Std.Data.TreeMap.Lemmas
import StackLift.Flow.Phi
import StackLift.Lift.Error

/-!
# Listings

A listing is a checked method indexed by address. It answers where control may
come from, and it takes down what lifting finds out on its way: the producers of
each instruction's operands, the addresses that have to start a block because a
phi needs a label there, and the phi sets themselves.
-/

namespace StackLift

/-- A checked method, indexed by address, with what lifting has found out. -/
structure Listing where
  instructions : Array Instruction
  index : Std.TreeMap Address Nat
  incoming : Std.TreeMap Address (List Address)
  /-- Producers of the operands of an instruction, first operand first. -/
  producers : Std.TreeMap Address (List Address)
  /-- Values of phi sets for which an address has to start a block. -/
  links : Std.TreeMap Address (List Address)
  phis : Std.TreeMap Address Phi

namespace Listing

def empty : Listing := ⟨#[], ∅, ∅, ∅, ∅, ∅⟩

def indexOf (instructions : List Instruction) : Std.TreeMap Address Nat :=
  .ofList (instructions.zipIdx.map fun entry => (entry.1.address, entry.2))

/-- The jumps into each address. Going through the instructions from the last to
the first leaves the jumps in address order. -/
def incomingOf (instructions : List Instruction) : Std.TreeMap Address (List Address) :=
  instructions.foldr
    (fun instruction incoming =>
      match instruction.jumpTarget? with
      | some target =>
        incoming.insert target (instruction.address :: incoming.getD target [])
      | none => incoming)
    ∅

/-- The listing of a method that keeps the contract for methods. -/
def ofMethod (method : Method) : Except Fault Listing :=
  match method.validate with
  | .error fault => .error fault
  | .ok () =>
    .ok {
      instructions := method.instructions
      index := indexOf method.instructions.toList
      incoming := incomingOf method.instructions.toList
      producers := ∅
      links := ∅
      phis := ∅ }

def size (listing : Listing) : Nat :=
  listing.instructions.size

def contains (listing : Listing) (address : Address) : Bool :=
  listing.index.contains address

def instruction? (listing : Listing) (address : Address) : Option Instruction :=
  listing.index[address]?.bind fun place => listing.instructions[place]?

def next? (listing : Listing) (address : Address) : Option Address :=
  listing.index[address]?.bind fun place =>
    listing.instructions[place + 1]?.map Instruction.address

def previous? (listing : Listing) (address : Address) : Option Address :=
  match listing.index[address]? with
  | some (place + 1) => listing.instructions[place]?.map Instruction.address
  | _ => none

def jumpsTo (listing : Listing) (address : Address) : List Address :=
  listing.incoming.getD address []

def linksTo (listing : Listing) (address : Address) : List Address :=
  listing.links.getD address []

/-- Lets an address start a block for a value of a phi set. -/
def link (listing : Listing) (address source : Address) : Listing :=
  let sources := listing.linksTo address
  if sources.contains source then listing
  else { listing with links := listing.links.insert address (sources ++ [source]) }

/-- Whether an address starts a block, by a jump or for a phi set. -/
def isLabel (listing : Listing) (address : Address) : Bool :=
  !(listing.jumpsTo address).isEmpty || !(listing.linksTo address).isEmpty

def labels (listing : Listing) : List Address :=
  (listing.instructions.toList.map Instruction.address).filter listing.isLabel

def producersOf (listing : Listing) (address : Address) : List Address :=
  listing.producers.getD address []

def setProducers (listing : Listing) (address : Address) (producers : List Address) :
    Except LiftError Listing :=
  if listing.contains address then
    .ok { listing with producers := listing.producers.insert address producers }
  else .error (.unknownAddress address)

def phiAt? (listing : Listing) (consumer : Address) : Option Phi :=
  listing.phis[consumer]?

/-- Takes down the phi set of a consumer, which may have only one. -/
def attach (listing : Listing) (consumer : Address) (phi : Phi) : Except LiftError Listing :=
  if !listing.contains consumer then .error (.unknownAddress consumer)
  else if listing.phis.contains consumer then .error (.phiTaken consumer)
  else .ok { listing with phis := listing.phis.insert consumer phi }

def phiTable (listing : Listing) : List (Address × Phi) :=
  listing.phis.toList

/-! ## What taking something down changes -/

/-- A link is added at one address, and only if it is new there. -/
theorem linksTo_link (listing : Listing) (address source other : Address) :
    (listing.link address source).linksTo other =
      if address = other ∧ source ∉ listing.linksTo address then
        listing.linksTo address ++ [source]
      else listing.linksTo other := by
  by_cases hsource : source ∈ listing.linksTo address
  · simp [link, hsource]
  · have hlinked : (listing.link address source).links =
        listing.links.insert address (listing.linksTo address ++ [source]) := by
      simp [link, hsource]
    have hget : (listing.link address source).linksTo other =
        (listing.links.insert address (listing.linksTo address ++ [source])).getD other [] := by
      rw [linksTo, hlinked]
    rw [hget, Std.TreeMap.getD_insert]
    simp only [hsource, not_false_eq_true, and_true, Std.LawfulEqCmp.compare_eq_iff_eq]
    rfl

@[simp]
theorem instruction?_link (listing : Listing) (address source : Address) :
    (listing.link address source).instruction? = listing.instruction? := by
  funext other
  simp only [link]
  split <;> rfl

@[simp]
theorem jumpsTo_link (listing : Listing) (address source : Address) :
    (listing.link address source).jumpsTo = listing.jumpsTo := by
  funext other
  simp only [link]
  split <;> rfl

@[simp]
theorem phis_link (listing : Listing) (address source : Address) :
    (listing.link address source).phis = listing.phis := by
  simp only [link]
  split <;> rfl

/-- Producers can be taken down for instructions only. -/
theorem setProducers_eq_ok_iff {listing noted : Listing} {address : Address}
    {producers : List Address} :
    listing.setProducers address producers = .ok noted ↔
      listing.contains address = true ∧
        noted = { listing with producers := listing.producers.insert address producers } := by
  by_cases hcontains : listing.contains address
  · simp [setProducers, hcontains, eq_comm]
  · simp [setProducers, hcontains]

/-- A phi set can be taken down for an instruction that has none. -/
theorem attach_eq_ok_iff {listing attached : Listing} {consumer : Address} {phi : Phi} :
    listing.attach consumer phi = .ok attached ↔
      listing.contains consumer = true ∧ listing.phiAt? consumer = none ∧
        attached = { listing with phis := listing.phis.insert consumer phi } := by
  by_cases hcontains : listing.contains consumer
  · by_cases hphi : listing.phis.contains consumer
    · have hsome : listing.phiAt? consumer ≠ none := by
        simpa [phiAt?] using hphi
      simp [attach, hcontains, hphi, hsome]
    · have hnone : listing.phiAt? consumer = none := by
        simpa [phiAt?] using hphi
      simp [attach, hcontains, hphi, hnone, eq_comm]
  · simp [attach, hcontains]

/-! ## Blocks

A block runs from a label up to the next label or to an instruction after which
control does not simply go on. An alternative of a phi set is named by the label
of its block. If the block has none, the start of the expression that produces
the alternative is made a label. -/

/-- The label that starts the block of the instruction at a place, found by going
back through instructions after which control simply goes on. -/
def blockStartAt? (listing : Listing) (place : Nat) : Option Address :=
  match listing.instructions[place]? with
  | none => none
  | some instruction =>
    if listing.isLabel instruction.address then some instruction.address
    else
      match place with
      | 0 => none
      | before + 1 =>
        if listing.instructions[before]?.any fun previous => previous.flow.endsBlock then none
        else blockStartAt? listing before

/-- The label that starts the block of an address. There is none at the entry of
the method and on the path that falls through a conditional jump, unless a label
stands there. -/
def blockStart? (listing : Listing) (address : Address) : Option Address :=
  listing.index[address]?.bind listing.blockStartAt?

/-- Where the expression that ends at an address begins: its first operand is
followed as long as that lies before it. -/
def groupStart (listing : Listing) (address : Address) : Address :=
  match (listing.producersOf address).head? with
  | some first => if first < address then listing.groupStart first else address
  | none => address
termination_by address.toNat
decreasing_by exact Address.lt_iff_toNat_lt.1 ‹_›

/-- Adds an alternative to a phi set, and a label for it where its block has none. -/
def addAlternative (listing : Listing) (phi : Phi) (value : Address) : Listing × Phi :=
  match listing.blockStart? value with
  | some label => (listing, phi.add value label)
  | none =>
    let label := listing.groupStart value
    (listing.link label value, phi.add value label)

def gather (listing : Listing) (values : List Address) : Listing × Phi :=
  values.foldl (fun state value => state.1.addAlternative state.2 value) (listing, .empty)

end Listing

end StackLift
