import StackLift.Proofs.Engine.Settled

/-!
# Engines in use

Nothing keeps a caller from going back with the walk, from forking branches that end
before they start, or from going on after a failure.  What every operation keeps holds
of all engines that can come about in this way.  Ended branches that are empty are gone
from them unless the active chain needs them, and no other branch is ever dropped.
-/

namespace StackLift

/-- What can be asked of an engine. -/
inductive Operation where
  | advance (address : Address)
  | push (address : Address)
  | pop
  | fork (stop : Address)
  | forkAt (address : Address)
  | reset
  deriving DecidableEq, Repr

namespace Engine

/-- What an operation makes of an engine and a listing, whether it succeeds or not. -/
def perform (engine : Engine) (listing : Listing) : Operation → Engine × Listing
  | .advance address => ((engine.advance address).1, listing)
  | .push address => (engine.push address, listing)
  | .pop => ((engine.pop listing).1, (engine.pop listing).2.1)
  | .fork stop => (engine.fork stop, listing)
  | .forkAt address => (engine.forkAt listing address, listing)
  | .reset => (engine.reset, listing)

/-- The engines that come about by operations, each allowed where it is asked for and
with a listing of its own. -/
inductive Reachable (allowed : Engine → Operation → Prop) : Engine → Prop where
  | start : Reachable allowed new
  | step {engine : Engine} (listing : Listing) (operation : Operation)
    (hreachable : Reachable allowed engine) (hallowed : allowed engine operation) :
    Reachable allowed (engine.perform listing operation).1

/-- Operations at will. -/
def anyUse : Engine → Operation → Prop :=
  fun _ _ => True

theorem Reachable.mono {allowed freer : Engine → Operation → Prop} {engine : Engine}
    (hfreer : ∀ engine operation, allowed engine operation → freer engine operation)
    (hreachable : Reachable allowed engine) : Reachable freer engine := by
  induction hreachable with
  | start => exact .start
  | step listing operation _ hallowed ih =>
      exact .step listing operation ih (hfreer _ operation hallowed)

/-! ## What every operation keeps -/

section Perform

variable {engine : Engine} (listing : Listing) (operation : Operation)

theorem Ordered.perform (hordered : engine.Ordered) :
    (engine.perform listing operation).1.Ordered := by
  cases operation with
  | advance address => exact hordered.advance address
  | push address => exact hordered.push address
  | pop => exact hordered.pop listing
  | fork stop => exact hordered.fork stop
  | forkAt address => exact hordered.forkAt listing address
  | reset => exact ordered_withMain _

theorem Settled.perform (hsettled : engine.Settled) (hordered : engine.Ordered) :
    (engine.perform listing operation).1.Settled := by
  cases operation with
  | advance address => exact settled_advance engine address
  | push address => exact hsettled.push address
  | pop => exact hsettled.pop hordered listing
  | fork stop => exact hsettled.fork stop
  | forkAt address => exact hsettled.forkAt listing address
  | reset => exact settled_withMain _

theorem Grounded.perform (hgrounded : engine.Grounded) (hsettled : engine.Settled)
    (hordered : engine.Ordered) : (engine.perform listing operation).1.Grounded := by
  cases operation with
  | advance address => exact hgrounded.advance address
  | push address => exact hgrounded.push hsettled hordered address
  | pop => exact hgrounded.pop listing
  | fork stop => exact hgrounded.fork stop
  | forkAt address => exact hgrounded.forkAt listing address
  | reset => exact grounded_withMain _

end Perform

namespace Reachable

variable {allowed : Engine → Operation → Prop} {engine : Engine}

theorem ordered (hreachable : Reachable allowed engine) : engine.Ordered := by
  induction hreachable with
  | start => exact ordered_withMain 0
  | step listing operation _ _ ih => exact ih.perform listing operation

theorem settled (hreachable : Reachable allowed engine) : engine.Settled := by
  induction hreachable with
  | start => exact settled_withMain 0
  | step listing operation hreachable _ ih =>
      exact ih.perform listing operation hreachable.ordered

theorem grounded (hreachable : Reachable allowed engine) : engine.Grounded := by
  induction hreachable with
  | start => exact grounded_withMain 0
  | step listing operation hreachable _ ih =>
      exact ih.perform listing operation hreachable.settled hreachable.ordered

end Reachable

/-! ## When branches are dropped -/

/-- A branch has ended, is empty, and does not lie on the active chain. -/
def Exhausted (engine : Engine) (branch : Branch) : Prop :=
  branch.slots = [] ∧ branch.stop ≤ engine.cursor ∧ branch.id ∉ engine.activeChain

theorem exhausted_of_notMem_collect {engine : Engine} {branch : Branch}
    (hbranch : branch ∈ engine.branches) (hdropped : branch ∉ engine.collect.branches) :
    engine.Exhausted branch := by
  rw [mem_branches_collect] at hdropped
  simp only [hbranch, true_and, not_or, not_lt, not_not] at hdropped
  exact ⟨hdropped.2.2, hdropped.2.1, hdropped.1⟩

/-- The engines that an operation collects, as they are just before: when the walk has
moved, when it has gone over to another branch, and when a pop has taken its slots. -/
def collected (engine : Engine) : Operation → List Engine
  | .advance address =>
    [{ engine with cursor := address },
      { ({ engine with cursor := address } : Engine).collect with
        active := (engine.advance address).1.active }]
  | .pop => [engine.dropTop]
  | _ => []

/-- The branch is no longer among those of the engine. -/
def Lacks (engine : Engine) (branch : Branch) : Prop :=
  ∀ live ∈ engine.branches, live.id ≠ branch.id

theorem not_lacks_mapSlots {engine : Engine} (slots : Branch → List Slot) {branch : Branch}
    (hbranch : branch ∈ engine.branches) : ¬ (engine.mapSlots slots).Lacks branch :=
  fun hlacks => hlacks _ ((mem_mapSlots slots).2 ⟨branch, hbranch, rfl⟩) rfl

theorem not_lacks_fork {engine : Engine} (stop : Address) {branch : Branch}
    (hbranch : branch ∈ engine.branches) : ¬ (engine.fork stop).Lacks branch :=
  fun hlacks => hlacks branch (List.mem_append_left _ hbranch) rfl

theorem exists_exhausted_of_advance {engine : Engine} {address : Address} {branch : Branch}
    (hbranch : branch ∈ engine.branches) (hlacks : (engine.advance address).1.Lacks branch) :
    ∃ before ∈ engine.collected (.advance address),
      ∃ held ∈ before.branches, held.id = branch.id ∧ before.Exhausted held := by
  have hmoved : branch ∈ ({ engine with cursor := address } : Engine).branches := hbranch
  by_cases hkept : branch ∈ ({ engine with cursor := address } : Engine).collect.branches
  · -- the first collection has left the branch, so it was dropped after the switch
    refine ⟨_, List.mem_cons_of_mem _ List.mem_cons_self, branch, hkept, rfl,
      exhausted_of_notMem_collect hkept fun hlive => ?_⟩
    rcases engine.advance_cases address with heq | ⟨id, _, heq⟩ | ⟨id, heq⟩
    · rw [heq] at hlacks
      exact hlacks branch hkept rfl
    · rw [heq] at hlacks hlive
      exact hlacks branch hlive rfl
    · rw [heq] at hlacks
      exact hlacks branch hkept rfl
  · exact ⟨_, List.mem_cons_self, branch, hmoved, rfl, exhausted_of_notMem_collect hmoved hkept⟩

theorem exists_exhausted_of_pop {engine : Engine} {listing : Listing} {branch : Branch}
    (hbranch : branch ∈ engine.branches) (hlacks : (engine.pop listing).1.Lacks branch) :
    ∃ before ∈ engine.collected .pop,
      ∃ held ∈ before.branches, held.id = branch.id ∧ before.Exhausted held := by
  have hnot : ¬ engine.dropTop.Lacks branch := by
    rw [dropTop_eq_mapSlots]
    exact not_lacks_mapSlots _ hbranch
  rcases engine.pop_cases listing with ⟨_, heq⟩ | ⟨slot, _, _, heq⟩ | ⟨slot, values, _, _, heq⟩
  · rw [heq] at hlacks
    exact absurd rfl (hlacks branch hbranch)
  · rw [heq] at hlacks
    exact absurd hlacks hnot
  · rw [heq] at hlacks
    simp only [Lacks, not_forall, not_not] at hnot
    obtain ⟨held, hheld, hid⟩ := hnot
    refine ⟨_, List.mem_cons_self, held, hheld, hid, exhausted_of_notMem_collect hheld ?_⟩
    exact fun hlive => hlacks held hlive hid

/-- Only a reset drops a branch that is not exhausted at that moment. -/
theorem exists_exhausted_of_lacks {engine : Engine} {listing : Listing} {operation : Operation}
    (hreset : operation ≠ .reset) {branch : Branch} (hbranch : branch ∈ engine.branches)
    (hlacks : (engine.perform listing operation).1.Lacks branch) :
    ∃ before ∈ engine.collected operation,
      ∃ held ∈ before.branches, held.id = branch.id ∧ before.Exhausted held := by
  cases operation with
  | advance address => exact exists_exhausted_of_advance hbranch hlacks
  | push address =>
      rw [perform, push_eq_mapSlots] at hlacks
      exact absurd hlacks (not_lacks_mapSlots _ hbranch)
  | pop => exact exists_exhausted_of_pop hbranch hlacks
  | fork stop => exact absurd hlacks (not_lacks_fork stop hbranch)
  | forkAt address =>
      rw [perform, forkAt] at hlacks
      split at hlacks
      · exact absurd hlacks (not_lacks_fork _ hbranch)
      · exact absurd rfl (hlacks branch hbranch)
  | reset => exact absurd rfl hreset

/-- However an engine is used, its ended branches hold something unless they lie on the
active chain, no hole lies at the bottom, the active branch is live, and only exhausted
branches are dropped. -/
theorem tidy_of_reachable (engine : Engine) (hreachable : Reachable anyUse engine) :
    (∀ branch ∈ engine.branches, branch.stop ≤ engine.cursor → branch.slots = [] →
        branch.id ∈ engine.activeChain) ∧
      (∀ branch ∈ engine.branches, engine.isMerging branch = true → branch.slots ≠ []) ∧
      (∀ branch ∈ engine.branches, branch.slots ≠ [] →
        ∃ value, branch.bottom? = some (.value value)) ∧
      (∃ active ∈ engine.branches, active.id = engine.active) ∧
      ∀ listing operation, operation ≠ .reset → ∀ branch ∈ engine.branches,
        (engine.perform listing operation).1.Lacks branch →
        ∃ before ∈ engine.collected operation,
          ∃ held ∈ before.branches, held.id = branch.id ∧ before.Exhausted held := by
  have hordered := hreachable.ordered
  have hsettled := hreachable.settled
  refine ⟨hsettled, ?_, ?_, hordered.active_live, ?_⟩
  · intro branch hbranch hmerging
    exact hsettled.slots_ne_nil_of_isMerging hordered hbranch hmerging
  · intro branch hbranch hslots
    exact hreachable.grounded.exists_bottom hbranch hslots
  · intro listing operation hreset branch hbranch hlacks
    exact exists_exhausted_of_lacks hreset hbranch hlacks

/-- An arm that has ended with a value, beside the main branch with a newer one. -/
def endedArm : Engine :=
  (((new.fork ⟨2⟩).push ⟨1⟩).advance ⟨2⟩).1.push ⟨3⟩

theorem reachable_fork : Reachable anyUse (new.fork ⟨2⟩) :=
  .step .empty (.fork ⟨2⟩) .start trivial

theorem reachable_endedArm : Reachable anyUse endedArm :=
  .step .empty (.push ⟨3⟩) (.step .empty (.advance ⟨2⟩)
    (.step .empty (.push ⟨1⟩) reachable_fork trivial) trivial) trivial

/-- The ended arm has got a hole, but not as its first slot.  An arm without values is
dropped where it ends. -/
theorem tidy_of_reachable_endedArm :
    (∃ arm ∈ endedArm.branches, arm.slots = [.hole, .value ⟨1⟩] ∧
        endedArm.isMerging arm = true ∧ arm.slots ≠ [] ∧
        ∃ value, arm.bottom? = some (.value value)) ∧
      ∃ arm ∈ (new.fork ⟨2⟩).branches,
        ((new.fork ⟨2⟩).perform .empty (.advance ⟨2⟩)).1.Lacks arm ∧
        ∃ before ∈ (new.fork ⟨2⟩).collected (.advance ⟨2⟩),
          ∃ held ∈ before.branches, held.id = arm.id ∧ before.Exhausted held := by
  have hended := tidy_of_reachable endedArm reachable_endedArm
  have hforked := tidy_of_reachable (new.fork ⟨2⟩) reachable_fork
  have harm : ⟨1, ⟨2⟩, some 0, [.hole, .value ⟨1⟩]⟩ ∈ endedArm.branches := by decide
  have hempty : ⟨1, ⟨2⟩, some 0, []⟩ ∈ (new.fork ⟨2⟩).branches := by decide
  have hmerging : endedArm.isMerging ⟨1, ⟨2⟩, some 0, [.hole, .value ⟨1⟩]⟩ = true := by decide
  have hlacks : ((new.fork ⟨2⟩).perform .empty (.advance ⟨2⟩)).1.Lacks ⟨1, ⟨2⟩, some 0, []⟩ := by
    unfold Lacks
    decide
  have hslots := hended.2.1 _ harm hmerging
  exact ⟨⟨_, harm, rfl, hmerging, hslots, hended.2.2.1 _ harm hslots⟩, _, hempty, hlacks,
    hforked.2.2.2.2 .empty _ (by decide) _ hempty hlacks⟩

end Engine

end StackLift
