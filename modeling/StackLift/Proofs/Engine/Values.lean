import Mathlib.Data.List.Perm.Basic
import StackLift.Proofs.Engine.Settled
import StackLift.Proofs.Listing.Notes

/-!
# The values on the stacks

The engine loses no value and makes up none.  Forking, walking on and collecting
leave all values where they are; a push adds one; a pop takes out the topmost
values of the active branch and of the branches that merge into it, and those
only.  On each branch values lie in the order in which they were produced.

A pop that meets waiting values gathers them into a phi set and attaches it to the
instruction after the last of them.  This succeeds as long as all values have a
successor and no phi set has one of them as its last value already.
-/

namespace StackLift

/-- The values of a branch, topmost first. -/
def Branch.values (branch : Branch) : List Address :=
  branch.slots.filterMap Slot.value?

namespace Engine

/-- The values of all live branches. -/
def values (engine : Engine) : List Address :=
  engine.branches.flatMap Branch.values

/-- On every branch a value lies above the older ones. -/
def Stacked (engine : Engine) : Prop :=
  ∀ branch ∈ engine.branches, branch.values.Pairwise (· > ·)

@[simp]
theorem values_collect (engine : Engine) : engine.collect.values = engine.values := by
  rw [values, values, collect]
  induction engine.branches with
  | nil => rfl
  | cons branch rest ih =>
      rw [List.filter_cons, List.flatMap_cons, ← ih]
      split
      · rw [List.flatMap_cons]
      · next hdropped =>
        have hempty : branch.slots = [] := by
          simp only [Bool.or_eq_true, Bool.not_eq_true', not_or, Bool.not_eq_false,
            Bool.and_eq_true] at hdropped
          exact List.isEmpty_iff.1 hdropped.2.2
        rw [Branch.values, hempty, List.filterMap_nil, List.nil_append]

@[simp]
theorem values_advance (engine : Engine) (address : Address) :
    (engine.advance address).1.values = engine.values := by
  have hmoved : ({ engine with cursor := address } : Engine).collect.values =
      engine.values := values_collect _
  refine advance_induction (motive := fun moved => moved.values = engine.values)
    engine address hmoved fun id _ => ?_
  rw [values_collect]
  exact hmoved

@[simp]
theorem values_fork (engine : Engine) (stop : Address) :
    (engine.fork stop).values = engine.values := by
  rw [values, values, fork, List.flatMap_append]
  simp [Branch.values]

@[simp]
theorem values_forkAt (engine : Engine) (listing : Listing) (address : Address) :
    (engine.forkAt listing address).values = engine.values := by
  rw [forkAt]
  split
  · exact values_fork engine _
  · rfl

theorem values_mapSlots (engine : Engine) (slots : Branch → List Slot) :
    (engine.mapSlots slots).values =
      engine.branches.flatMap fun branch => (slots branch).filterMap Slot.value? := by
  rw [values, mapSlots, List.flatMap_map]
  rfl

/-- What is gathered from the active branch alone. -/
theorem Ordered.flatMap_active {engine : Engine} (hordered : engine.Ordered)
    {active : Branch} (hactive : engine.activeBranch? = some active)
    (gather : Branch → List Address) :
    (engine.branches.flatMap fun branch =>
      if branch.id = engine.active then gather branch else []) = gather active := by
  obtain ⟨older, found, newer, hsplit, hid, hfound, hother⟩ := hordered.split_active
  rw [hactive, Option.some.injEq] at hfound
  subst hfound
  have hnone : ∀ side : List Branch, (∀ branch ∈ side, branch ∈ older ++ newer) →
      (side.flatMap fun branch =>
        if branch.id = engine.active then gather branch else []) = [] := by
    intro side hside
    rw [List.flatMap_eq_nil_iff]
    intro branch hbranch
    rw [if_neg (hother branch (hside branch hbranch))]
  rw [hsplit, List.flatMap_append, List.flatMap_cons,
    hnone older fun _ => List.mem_append_left _,
    hnone newer fun _ => List.mem_append_right _,
    if_pos hid, List.nil_append, List.append_nil]

/-- A push adds one value. -/
theorem Ordered.values_push_perm {engine : Engine} (hordered : engine.Ordered)
    (address : Address) :
    (engine.push address).values.Perm (address :: engine.values) := by
  obtain ⟨_, active, _, _, _, hactive, _⟩ := hordered.split_active
  have hslots : ∀ branch : Branch,
      (engine.pushedSlots address branch).filterMap Slot.value? =
        (if branch.id = engine.active then [address] else []) ++ branch.values := by
    intro branch
    rw [pushedSlots]
    split
    · rfl
    · split <;> rfl
  rw [push_eq_mapSlots, values_mapSlots]
  simp only [hslots]
  refine (List.flatMap_append_perm _ _ _).symm.trans ?_
  rw [hordered.flatMap_active hactive fun _ => [address]]
  exact List.Perm.refl _

/-- The values that the merging branches have on top. -/
def waiting (engine : Engine) : List Address :=
  engine.mergingTops.filterMap Slot.value?

theorem waiting_eq_flatMap (engine : Engine) :
    engine.waiting = engine.branches.flatMap fun branch =>
      if engine.isMerging branch then (branch.top?.bind Slot.value?).toList else [] := by
  rw [waiting, mergingTops]
  induction engine.branches with
  | nil => rfl
  | cons branch rest ih =>
      rw [List.filterMap_cons, List.flatMap_cons, ← ih]
      by_cases hmerging : engine.isMerging branch = true
      · rw [if_pos hmerging, if_pos hmerging]
        cases branch.top? with
        | none => rfl
        | some slot => cases slot <;> rfl
      · rw [if_neg hmerging, if_neg hmerging]
        rfl

/-- Dropping the topmost slots takes out the waiting values and the active one. -/
theorem Ordered.values_dropTop_perm {engine : Engine} (hordered : engine.Ordered)
    {slot : Slot} (hslot : engine.activeBranch?.bind Branch.top? = some slot) :
    engine.values.Perm
      ((engine.waiting ++ slot.value?.toList) ++ engine.dropTop.values) := by
  obtain ⟨active, hactive, htop⟩ := Option.bind_eq_some_iff.1 hslot
  have hsplit : ∀ branch : Branch, branch.values =
      ((if engine.isMerging branch then (branch.top?.bind Slot.value?).toList else []) ++
        if branch.id = engine.active then (branch.top?.bind Slot.value?).toList else []) ++
        (engine.droppedSlots branch).filterMap Slot.value? := by
    intro branch
    have htail : branch.values =
        (branch.top?.bind Slot.value?).toList ++
          branch.slots.tail.filterMap Slot.value? := by
      rw [Branch.values, Branch.top?]
      cases branch.slots with
      | nil => rfl
      | cons first rest => cases first <;> rfl
    by_cases hactive : branch.id = engine.active
    · have hmerging : engine.isMerging branch = false := by
        rw [isMerging, hactive]
        simp
      rw [droppedSlots, if_pos (Or.inl hactive), if_pos hactive, hmerging]
      exact htail
    · by_cases hmerging : engine.isMerging branch = true
      · rw [droppedSlots, if_pos (Or.inr hmerging), if_pos hmerging, if_neg hactive,
          List.append_nil]
        exact htail
      · rw [droppedSlots, if_neg (not_or.2 ⟨hactive, hmerging⟩), if_neg hmerging,
          if_neg hactive]
        rfl
  have hvalues : engine.values = engine.branches.flatMap fun branch =>
      ((if engine.isMerging branch then (branch.top?.bind Slot.value?).toList else []) ++
        if branch.id = engine.active then (branch.top?.bind Slot.value?).toList else []) ++
        (engine.droppedSlots branch).filterMap Slot.value? := by
    rw [values]
    congr 1
    funext branch
    exact hsplit branch
  rw [hvalues, dropTop_eq_mapSlots, values_mapSlots]
  refine (List.flatMap_append_perm _ _ _).symm.trans (List.Perm.append_right _ ?_)
  refine (List.flatMap_append_perm _ _ _).symm.trans ?_
  rw [← waiting_eq_flatMap, hordered.flatMap_active hactive
    fun branch => (branch.top?.bind Slot.value?).toList, htop]
  exact List.Perm.refl _

/-! ## The order of values on a branch -/

theorem stacked_withMain (id : BranchId) : (withMain id).Stacked := by
  intro branch hbranch
  rw [List.mem_singleton.1 hbranch]
  exact List.Pairwise.nil

namespace Stacked

variable {engine : Engine}

theorem collect (hstacked : engine.Stacked) : engine.collect.Stacked :=
  fun branch hbranch => hstacked branch (mem_of_mem_collect hbranch)

theorem advance (hstacked : engine.Stacked) (address : Address) :
    (engine.advance address).1.Stacked := by
  have hmoved : ({ engine with cursor := address } : Engine).collect.Stacked :=
    Stacked.collect hstacked
  exact advance_induction engine address hmoved fun _ _ => Stacked.collect hmoved

theorem forkAt (hstacked : engine.Stacked) (listing : Listing) (address : Address) :
    (engine.forkAt listing address).Stacked := by
  rw [Engine.forkAt]
  split
  · intro branch hbranch
    rcases List.mem_append.1 hbranch with hold | hnew
    · exact hstacked branch hold
    · rw [List.mem_singleton.1 hnew]
      exact List.Pairwise.nil
  · exact hstacked

/-- A push keeps the order if its value is newer than all others. -/
theorem push (hstacked : engine.Stacked) {address : Address}
    (hnewer : ∀ value ∈ engine.values, value < address) :
    (engine.push address).Stacked := by
  rw [push_eq_mapSlots]
  intro branch hbranch
  obtain ⟨held, hheld, rfl⟩ := (mem_mapSlots _).1 hbranch
  rw [Branch.values]
  change ((engine.pushedSlots address held).filterMap Slot.value?).Pairwise (· > ·)
  rw [pushedSlots]
  split
  · refine List.pairwise_cons.2 ⟨?_, hstacked held hheld⟩
    intro value hvalue
    exact hnewer value (List.mem_flatMap.2 ⟨held, hheld, hvalue⟩)
  · split
    · exact hstacked held hheld
    · exact hstacked held hheld

theorem dropTop (hstacked : engine.Stacked) : engine.dropTop.Stacked := by
  rw [dropTop_eq_mapSlots]
  intro branch hbranch
  obtain ⟨held, hheld, rfl⟩ := (mem_mapSlots _).1 hbranch
  rw [Branch.values]
  change ((engine.droppedSlots held).filterMap Slot.value?).Pairwise (· > ·)
  rw [droppedSlots]
  split
  · exact (hstacked held hheld).sublist ((List.tail_sublist _).filterMap _)
  · exact hstacked held hheld

theorem pop (hstacked : engine.Stacked) (listing : Listing) :
    (engine.pop listing).1.Stacked :=
  pop_induction engine listing hstacked (fun _ => hstacked.dropTop) hstacked.dropTop.collect

end Stacked

/-! ## Merging -/

@[simp]
theorem mergeValues_nil (cursor : Address) (listing : Listing) :
    mergeValues cursor listing [] = (listing, .ok none) := rfl

theorem mergeValues_of_gather (cursor : Address) {listing : Listing} {values : List Address}
    {links : Std.TreeMap Address (List Address)} {phi : Phi} {anchor consumer : Address}
    (hgather : listing.gather values = ({ listing with links := links }, phi))
    (hanchor : phi.anchor? = some anchor) (hnext : listing.next? anchor = some consumer)
    (hcontains : listing.contains consumer = true) (hfree : listing.phiAt? consumer = none) :
    mergeValues cursor listing values =
      ({ listing with links := links, phis := listing.phis.insert consumer phi },
        .ok (some consumer)) := by
  have hlabelled : ({ listing with links := links } : Listing).next? anchor =
      some consumer := hnext
  have hattach : ({ listing with links := links } : Listing).attach consumer phi =
      .ok { listing with links := links, phis := listing.phis.insert consumer phi } :=
    Listing.attach_eq_ok_iff.2 ⟨hcontains, hfree, rfl⟩
  rw [mergeValues, hgather]
  simp only [hanchor, hlabelled, hattach]

/-- The phi set of values goes to the instruction after the last of them. -/
theorem mergeValues_eq_ok (cursor : Address) {listing : Listing} {values : List Address}
    (hvalues : values ≠ [])
    (hnext : ∀ value ∈ values, ∃ next, listing.next? value = some next ∧
      listing.contains next = true ∧ listing.phiAt? next = none) :
    ∃ links phi anchor consumer,
      listing.gather values = ({ listing with links := links }, phi) ∧
        phi.values = values ∧ phi.anchor? = some anchor ∧
        listing.next? anchor = some consumer ∧ listing.phiAt? consumer = none ∧
        mergeValues cursor listing values =
          ({ listing with links := links, phis := listing.phis.insert consumer phi },
            .ok (some consumer)) := by
  obtain ⟨links, phi, hgather, hphi⟩ := listing.gather_eq values
  obtain ⟨anchor, hanchor⟩ : ∃ anchor, phi.anchor? = some anchor := by
    cases hcase : phi.anchor? with
    | none => exact absurd (hphi ▸ Phi.anchor?_eq_none_iff.1 hcase) hvalues
    | some anchor => exact ⟨anchor, rfl⟩
  have hmem : anchor ∈ values := hphi ▸ (Phi.anchor?_eq_some_iff.1 hanchor).1
  obtain ⟨consumer, hconsumer, hcontains, hfree⟩ := hnext anchor hmem
  exact ⟨links, phi, anchor, consumer, hgather, hphi, hanchor, hconsumer, hfree,
    mergeValues_of_gather cursor hgather hanchor hconsumer hcontains hfree⟩

end Engine

end StackLift
