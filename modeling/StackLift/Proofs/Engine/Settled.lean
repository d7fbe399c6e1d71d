import StackLift.Proofs.Engine.Order

/-!
# Ended branches

An ended branch with no slots is kept only as long as the active chain needs it.
So a branch that merges into the active one always holds something, and a hole is
never the first thing to be put on a branch.
-/

namespace StackLift.Engine

/-- Every branch that has ended and is empty belongs to the active chain. -/
def Settled (engine : Engine) : Prop :=
  ∀ branch ∈ engine.branches, branch.stop ≤ engine.cursor → branch.slots = [] →
    branch.id ∈ engine.activeChain

/-- No branch has a hole at its bottom. -/
def Grounded (engine : Engine) : Prop :=
  ∀ branch ∈ engine.branches, branch.bottom? ≠ some .hole

theorem settled_withMain (id : BranchId) : (withMain id).Settled := by
  intro branch hbranch _ _
  rw [List.mem_singleton.1 hbranch]
  exact (ordered_withMain id).active_mem_activeChain

theorem grounded_withMain (id : BranchId) : (withMain id).Grounded := by
  intro branch hbranch
  rw [List.mem_singleton.1 hbranch]
  simp [Branch.bottom?]

/-- Collecting settles any engine. -/
theorem settled_collect (engine : Engine) : engine.collect.Settled := by
  intro branch hbranch hclosed hempty
  rw [activeChain_collect]
  obtain ⟨_, hchain | hopen | hslots⟩ := mem_branches_collect.1 hbranch
  · exact hchain
  · exact absurd hclosed (not_le.2 hopen)
  · exact absurd hempty hslots

theorem settled_advance (engine : Engine) (address : Address) :
    (engine.advance address).1.Settled :=
  advance_induction engine address (settled_collect _) fun _ _ => settled_collect _

theorem activeChain_fork (engine : Engine) (stop : Address) :
    (engine.fork stop).activeChain = engine.nextId :: engine.activeChain := by
  rw [activeChain, activeChain, fork, List.reverse_append, List.reverse_singleton,
    List.singleton_append, rootsFrom]
  simp only [beq_self_eq_true, if_true]

theorem stop_le_of_isMerging {engine : Engine} {branch : Branch}
    (hmerging : engine.isMerging branch = true) : branch.stop ≤ engine.cursor := by
  rw [isMerging, Bool.and_eq_true, Bool.and_eq_true] at hmerging
  exact of_decide_eq_true hmerging.1.2

theorem Grounded.collect {engine : Engine} (hgrounded : engine.Grounded) :
    engine.collect.Grounded :=
  fun branch hbranch => hgrounded branch (mem_of_mem_collect hbranch)

theorem Grounded.advance {engine : Engine} (hgrounded : engine.Grounded)
    (address : Address) : (engine.advance address).1.Grounded := by
  have hmoved : ({ engine with cursor := address } : Engine).collect.Grounded :=
    Grounded.collect hgrounded
  exact advance_induction engine address hmoved fun _ _ => Grounded.collect hmoved

namespace Settled

variable {engine : Engine}

theorem mapSlots {slots : Branch → List Slot}
    (hslots : ∀ branch ∈ engine.branches, slots branch = [] →
      branch.slots = [] ∨ branch.id ∈ engine.activeChain)
    (hsettled : engine.Settled) : (engine.mapSlots slots).Settled := by
  intro branch hbranch hclosed hempty
  obtain ⟨held, hheld, rfl⟩ := (mem_mapSlots slots).1 hbranch
  rw [activeChain_mapSlots]
  rcases hslots held hheld hempty with hnil | hchain
  · exact hsettled held hheld hclosed hnil
  · exact hchain

theorem push (hsettled : engine.Settled) (address : Address) :
    (engine.push address).Settled := by
  rw [push_eq_mapSlots]
  apply hsettled.mapSlots
  intro branch _ hempty
  left
  rw [pushedSlots] at hempty
  split at hempty
  · cases hempty
  · split at hempty
    · cases hempty
    · exact hempty

theorem fork (hsettled : engine.Settled) (stop : Address) :
    (engine.fork stop).Settled := by
  intro branch hbranch hclosed hempty
  rw [activeChain_fork]
  rcases List.mem_append.1 hbranch with hold | hnew
  · exact List.mem_cons_of_mem _ (hsettled branch hold hclosed hempty)
  · rw [List.mem_singleton.1 hnew]
    exact List.mem_cons_self

theorem forkAt (hsettled : engine.Settled) (listing : Listing) (address : Address) :
    (engine.forkAt listing address).Settled := by
  rw [Engine.forkAt]
  split
  · exact hsettled.fork _
  · exact hsettled

/-- A merging branch holds something. -/
theorem slots_ne_nil_of_isMerging (hsettled : engine.Settled)
    (hordered : engine.Ordered) {branch : Branch} (hbranch : branch ∈ engine.branches)
    (hmerging : engine.isMerging branch = true) : branch.slots ≠ [] := by
  intro hempty
  exact hordered.notMem_activeChain_of_isMerging hbranch hmerging
    (hsettled branch hbranch (stop_le_of_isMerging hmerging) hempty)

theorem isMerging_eq_false (hsettled : engine.Settled) (hordered : engine.Ordered)
    (htops : engine.mergingTops = []) {branch : Branch}
    (hbranch : branch ∈ engine.branches) : engine.isMerging branch = false := by
  by_contra hmerging
  rw [Bool.not_eq_false] at hmerging
  obtain ⟨slot, rest, hslots⟩ := List.exists_cons_of_ne_nil
    (hsettled.slots_ne_nil_of_isMerging hordered hbranch hmerging)
  rw [mergingTops, List.filterMap_eq_nil_iff] at htops
  have hnone := htops branch hbranch
  rw [if_pos hmerging, Branch.top?, hslots, List.head?_cons] at hnone
  cases hnone

theorem pop (hsettled : engine.Settled) (hordered : engine.Ordered) (listing : Listing) :
    (engine.pop listing).1.Settled := by
  refine pop_induction engine listing hsettled (fun htops => ?_) (settled_collect _)
  rw [dropTop_eq_mapSlots]
  apply hsettled.mapSlots
  intro branch hbranch hempty
  by_cases hactive : branch.id = engine.active
  · right
    rw [hactive]
    exact hordered.active_mem_activeChain
  · left
    have hmerging := hsettled.isMerging_eq_false hordered htops hbranch
    rw [droppedSlots, if_neg (by simp [hactive, hmerging])] at hempty
    exact hempty

end Settled

namespace Grounded

variable {engine : Engine}

theorem mapSlots {slots : Branch → List Slot}
    (hslots : ∀ branch ∈ engine.branches, branch.bottom? ≠ some .hole →
      (slots branch).getLast? ≠ some .hole)
    (hgrounded : engine.Grounded) : (engine.mapSlots slots).Grounded := by
  intro branch hbranch
  obtain ⟨held, hheld, rfl⟩ := (mem_mapSlots slots).1 hbranch
  exact hslots held hheld (hgrounded held hheld)

theorem push (hgrounded : engine.Grounded) (hsettled : engine.Settled)
    (hordered : engine.Ordered) (address : Address) :
    (engine.push address).Grounded := by
  rw [push_eq_mapSlots]
  apply hgrounded.mapSlots
  intro branch hbranch hbottom
  rw [Branch.bottom?] at hbottom
  rw [pushedSlots]
  split
  · cases hslots : branch.slots with
    | nil => simp
    | cons slot rest =>
        rw [List.getLast?_cons_cons, ← hslots]
        exact hbottom
  · split
    · next hmerging =>
      -- a merging branch holds something, so the hole does not become its bottom
      obtain ⟨slot, rest, hslots⟩ := List.exists_cons_of_ne_nil
        (hsettled.slots_ne_nil_of_isMerging hordered hbranch hmerging)
      rw [hslots, List.getLast?_cons_cons, ← hslots]
      exact hbottom
    · exact hbottom

theorem dropTop (hgrounded : engine.Grounded) : engine.dropTop.Grounded := by
  rw [dropTop_eq_mapSlots]
  apply hgrounded.mapSlots
  intro branch _ hbottom
  rw [Branch.bottom?] at hbottom
  rw [droppedSlots]
  split
  · cases hslots : branch.slots with
    | nil => simp
    | cons slot rest =>
        cases rest with
        | nil => simp
        | cons next rest =>
            rw [hslots, List.getLast?_cons_cons] at hbottom
            exact hbottom
  · exact hbottom

theorem pop (hgrounded : engine.Grounded) (listing : Listing) :
    (engine.pop listing).1.Grounded :=
  pop_induction engine listing hgrounded (fun _ => hgrounded.dropTop) hgrounded.dropTop.collect

theorem fork (hgrounded : engine.Grounded) (stop : Address) : (engine.fork stop).Grounded := by
  intro branch hbranch
  rcases List.mem_append.1 hbranch with hold | hnew
  · exact hgrounded branch hold
  · rw [List.mem_singleton.1 hnew]
    simp [Branch.bottom?]

theorem forkAt (hgrounded : engine.Grounded) (listing : Listing) (address : Address) :
    (engine.forkAt listing address).Grounded := by
  rw [Engine.forkAt]
  split
  · exact hgrounded.fork _
  · exact hgrounded

theorem exists_bottom (hgrounded : engine.Grounded) {branch : Branch}
    (hbranch : branch ∈ engine.branches) (hslots : branch.slots ≠ []) :
    ∃ value, branch.bottom? = some (.value value) := by
  have hbottom := hgrounded branch hbranch
  rw [Branch.bottom?, List.getLast?_eq_some_getLast hslots] at hbottom ⊢
  cases hlast : branch.slots.getLast hslots with
  | value value => exact ⟨value, rfl⟩
  | hole => exact absurd (congrArg some hlast) hbottom

end Grounded

end StackLift.Engine
