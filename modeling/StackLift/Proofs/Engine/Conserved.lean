import StackLift.Proofs.Engine.Account
import StackLift.Proofs.Engine.Reach

/-!
# The conservation of values

An engine is used at will, with one listing that takes down its phi sets: the walk may
go back, arms may end before they start, and work goes on after a failure.  As long as
no value is pushed twice, nothing is lost.  What the branches hold and what the pops
have handed out are the pushed values, each of them once.
-/

namespace StackLift

open scoped List

/-- The values that an operation puts on a stack. -/
def Operation.pushed : Operation → List Address
  | .push address => [address]
  | _ => []

/-- The values that an operation hands out: those of the phi set if a pop has attached
one, and otherwise the value of the slot, unless it is a hole. -/
def Engine.handed (engine : Engine) (listing : Listing) : Operation → List Address
  | .pop =>
    match engine.pop listing with
    | (_, merged, .ok popped) => popped.taken merged
    | (_, _, .error _) => []
  | _ => []

/-- An engine in use, its listing, and the values that it has handed out so far. -/
structure Session where
  engine : Engine
  listing : Listing
  handed : List Address

namespace Session

def start (listing : Listing) : Session :=
  ⟨.new, listing, []⟩

/-- The session after an operation, whether this has succeeded or not. -/
def perform (session : Session) (operation : Operation) : Session where
  engine := (session.engine.perform session.listing operation).1
  listing := (session.engine.perform session.listing operation).2
  handed := session.handed ++ session.engine.handed session.listing operation

def run (session : Session) (operations : List Operation) : Session :=
  operations.foldl perform session

/-- The listing keeps account of the pushed values, and none of them is lost. -/
structure Balanced (session : Session) (code : List Instruction) (pushed : List Address) :
    Prop where
  accounts : session.engine.Accounts session.listing code pushed
  conserved : (session.engine.values ++ session.handed).Perm pushed

theorem balanced_start {listing : Listing} {code : List Instruction}
    (hindexes : listing.Indexes code) (hphis : listing.phis = ∅) :
    (start listing).Balanced code [] where
  accounts := Engine.accounts_withMain hindexes hphis 0 []
  conserved := List.Perm.nil

namespace Balanced

variable {session : Session} {code : List Instruction} {pushed : List Address}

/-- Operations that leave all values where they are. -/
theorem of_values_eq (hbalanced : session.Balanced code pushed) {later : Engine}
    (hordered : later.Ordered) (hvalues : later.values = session.engine.values) :
    (Session.mk later session.listing (session.handed ++ [])).Balanced code (pushed ++ []) where
  accounts := by
    rw [List.append_nil pushed]
    exact hbalanced.accounts.of_values_eq hordered hvalues
  conserved := by
    rw [List.append_nil, List.append_nil, hvalues]
    exact hbalanced.conserved

theorem push (hbalanced : session.Balanced code pushed) {address : Address}
    (hfresh : address ∉ pushed) :
    (session.perform (.push address)).Balanced code (pushed ++ [address]) where
  accounts := hbalanced.accounts.push hfresh (fun _ hold => List.mem_append_left _ hold)
    (List.mem_append_right _ (List.mem_singleton_self address))
  conserved := by
    have hpush := hbalanced.accounts.ordered.values_push_perm address
    calc
      (session.engine.push address).values ++ (session.handed ++ []) =
          (session.engine.push address).values ++ session.handed := by rw [List.append_nil]
      _ ~ address :: (session.engine.values ++ session.handed) :=
        hpush.append_right session.handed
      _ ~ address :: pushed := hbalanced.conserved.cons address
      _ ~ pushed ++ [address] := (List.perm_append_singleton address pushed).symm

/-- What a pop takes off the stacks is handed out. -/
theorem pop (hbalanced : session.Balanced code pushed) (hcode : Checked code)
    (hnext : ∀ value ∈ pushed, ∃ next, session.listing.next? value = some next) :
    (session.perform .pop).Balanced code (pushed ++ []) := by
  rw [List.append_nil]
  rcases hbalanced.accounts.pop hcode hnext with
    ⟨_, heq⟩ | ⟨slot, popped, merged, heq, hpopsSlot⟩
  · have hsame : session.perform .pop = session := by
      simp only [perform, Engine.perform, Engine.handed, heq, List.append_nil]
    rw [hsame]
    exact hbalanced
  · have hafter : session.perform .pop =
        ⟨popped, merged, session.handed ++ slot.taken merged⟩ := by
      simp only [perform, Engine.perform, Engine.handed, heq]
    rw [hafter]
    refine ⟨hpopsSlot.accounts, ?_⟩
    calc
      popped.values ++ (session.handed ++ slot.taken merged) ~
          session.handed ++ slot.taken merged ++ popped.values := List.perm_append_comm
      _ = session.handed ++ (slot.taken merged ++ popped.values) := List.append_assoc _ _ _
      _ ~ session.handed ++ session.engine.values :=
        hpopsSlot.values.symm.append_left session.handed
      _ ~ session.engine.values ++ session.handed := List.perm_append_comm
      _ ~ pushed := hbalanced.conserved

/-- No operation but a reset loses a value. -/
theorem perform (hbalanced : session.Balanced code pushed) (hcode : Checked code)
    {operation : Operation} (hreset : operation ≠ .reset)
    (hdistinct : (pushed ++ operation.pushed).Nodup)
    (hnext : ∀ value ∈ pushed, ∃ next, session.listing.next? value = some next) :
    (session.perform operation).Balanced code (pushed ++ operation.pushed) := by
  have hordered := hbalanced.accounts.ordered
  cases operation with
  | advance address =>
      exact hbalanced.of_values_eq (hordered.advance address) (Engine.values_advance _ address)
  | push address =>
      apply hbalanced.push
      intro hpushed
      exact (List.nodup_append.1 hdistinct).2.2 address hpushed address
        (List.mem_singleton_self address) rfl
  | pop => exact hbalanced.pop hcode hnext
  | fork stop =>
      exact hbalanced.of_values_eq (hordered.fork stop) (Engine.values_fork _ stop)
  | forkAt address =>
      exact hbalanced.of_values_eq (hordered.forkAt session.listing address)
        (Engine.values_forkAt _ session.listing address)
  | reset => exact absurd rfl hreset

theorem run {listing : Listing} (hindexes : listing.Indexes code) (hcode : Checked code)
    {operations : List Operation} (hbalanced : session.Balanced code pushed)
    (hreset : .reset ∉ operations)
    (hdistinct : (pushed ++ operations.flatMap Operation.pushed).Nodup)
    (hnext : ∀ value ∈ pushed ++ operations.flatMap Operation.pushed,
      ∃ next, listing.next? value = some next) :
    (session.run operations).Balanced code
      (pushed ++ operations.flatMap Operation.pushed) := by
  induction operations generalizing session pushed with
  | nil =>
      rw [List.flatMap_nil, List.append_nil]
      exact hbalanced
  | cons operation rest ih =>
      rw [List.flatMap_cons, ← List.append_assoc] at hdistinct hnext ⊢
      obtain ⟨hoperation, hrest⟩ := not_or.1 (mt List.mem_cons.2 hreset)
      have hsuccessor : ∀ value ∈ pushed, ∃ next, session.listing.next? value = some next := by
        intro value hvalue
        rw [hbalanced.accounts.indexes.next?_eq hindexes]
        exact hnext value (List.mem_append_left _ (List.mem_append_left _ hvalue))
      have hstep := hbalanced.perform hcode (Ne.symm hoperation)
        (List.nodup_append.1 hdistinct).1 hsuccessor
      exact ih hstep hrest hdistinct hnext

end Balanced

/-- A session with a checked method, in which no value is pushed twice and every value
has an instruction behind it, conserves the values after each of its operations.  A pop
takes a slot or finds its branch empty, and then it changes nothing. -/
theorem conserved_of_run {method : Method} {listing : Listing} {operations : List Operation}
    {session : Session} (hlisting : Listing.ofMethod method = .ok listing)
    (hrun : (start listing).run operations = session) (hreset : .reset ∉ operations)
    (hdistinct : (operations.flatMap Operation.pushed).Nodup)
    (hnext : ∀ value ∈ operations.flatMap Operation.pushed,
      ∃ next, listing.next? value = some next) :
    (session.engine.values ++ session.handed).Perm (operations.flatMap Operation.pushed) ∧
      ((session.engine.activeBranch?.bind Branch.top? = none ∧
          session.engine.pop session.listing =
            (session.engine, session.listing,
              .error (.underflow session.engine.active (some session.engine.cursor)))) ∨
        ∃ popped merged slot,
          session.engine.pop session.listing = (popped, merged, .ok slot)) := by
  have hcode := (Listing.ofMethod_eq_ok_iff.1 hlisting).1
  have hindexes := Listing.indexes_of_ofMethod hlisting
  have hstart := balanced_start hindexes (Listing.phis_of_ofMethod hlisting)
  have hbalanced := hstart.run hindexes hcode hreset hdistinct hnext
  rw [hrun, List.nil_append] at hbalanced
  refine ⟨hbalanced.conserved, ?_⟩
  have hsuccessor : ∀ value ∈ operations.flatMap Operation.pushed,
      ∃ next, session.listing.next? value = some next := by
    rw [hbalanced.accounts.indexes.next?_eq hindexes]
    exact hnext
  rcases hbalanced.accounts.pop hcode hsuccessor with hempty | ⟨slot, popped, merged, heq, _⟩
  · exact Or.inl hempty
  · exact Or.inr ⟨popped, merged, slot, heq⟩

/-- A method that loads three constants. -/
def constants : Method where
  name := "constants"
  instructions := #[⟨⟨0⟩, .ldcI4, .int32 1⟩, ⟨⟨1⟩, .ldcI4, .int32 2⟩, ⟨⟨2⟩, .ldcI4, .int32 3⟩,
    ⟨⟨3⟩, .retVoid, .absent⟩]

/-- A pop that finds nothing, one that merges two arms, and a walk that goes back. -/
def merging : List Operation :=
  [.pop, .push ⟨0⟩, .fork ⟨3⟩, .push ⟨1⟩, .advance ⟨3⟩, .pop, .push ⟨2⟩, .advance ⟨1⟩]

theorem conserved_of_run_merging :
    ∃ listing session, Listing.ofMethod constants = .ok listing ∧
      (start listing).run merging = session ∧ session.engine.values = [⟨2⟩] ∧
      session.handed = [⟨1⟩, ⟨0⟩] ∧
      (session.engine.values ++ session.handed).Perm [⟨0⟩, ⟨1⟩, ⟨2⟩] ∧
      ((session.engine.activeBranch?.bind Branch.top? = none ∧
          session.engine.pop session.listing =
            (session.engine, session.listing,
              .error (.underflow session.engine.active (some session.engine.cursor)))) ∨
        ∃ popped merged slot,
          session.engine.pop session.listing = (popped, merged, .ok slot)) := by
  obtain ⟨listing, hlisting, hfirst, hsecond, hthird⟩ : ∃ listing,
      Listing.ofMethod constants = .ok listing ∧ listing.next? ⟨0⟩ = some ⟨1⟩ ∧
        listing.next? ⟨1⟩ = some ⟨2⟩ ∧ listing.next? ⟨2⟩ = some ⟨3⟩ :=
    ⟨_, rfl, rfl, rfl, rfl⟩
  have hnext : ∀ value ∈ merging.flatMap Operation.pushed,
      ∃ next, listing.next? value = some next := by
    intro value hvalue
    have hcases : value = ⟨0⟩ ∨ value = ⟨1⟩ ∨ value = ⟨2⟩ := by
      simpa [merging, Operation.pushed] using hvalue
    rcases hcases with rfl | rfl | rfl
    · exact ⟨_, hfirst⟩
    · exact ⟨_, hsecond⟩
    · exact ⟨_, hthird⟩
  have hconserved := conserved_of_run hlisting rfl (by decide) (by decide) hnext
  obtain ⟨_, rfl⟩ := Listing.ofMethod_eq_ok_iff.1 hlisting
  exact ⟨_, _, hlisting, rfl, by decide +kernel, by decide +kernel, hconserved⟩

end Session

end StackLift
