import StackLift.Lift.Walk
import StackLift.Proofs.Engine.Nested

/-!
# Branches that hold nothing

As long as every branch but the active one is empty, and a branch ends only where the
active one is empty as well, nothing merges.  Slots then go to the active branch and come
back from it as from a single stack, and an ended branch is gone at once.
-/

namespace StackLift.Engine

/-- The branches by number, with the addresses at which they end. -/
def bounds (engine : Engine) : List (BranchId × Address) :=
  engine.branches.map fun branch => (branch.id, branch.stop)

/-- No branch has ended, and only the active one holds anything. -/
structure OnlyActive (engine : Engine) (slots : List Slot) : Prop where
  nested : engine.Nested
  ordered : engine.Ordered
  anchored : engine.Anchored
  lasting : ∀ branch ∈ engine.branches, engine.cursor < branch.stop
  slots_eq : ∀ branch ∈ engine.branches,
    branch.slots = if branch.id = engine.active then slots else []

/-- The walk can go on to an address.  It lies ahead, and no branch ends before it, or at it
while there are slots. -/
structure Ahead (engine : Engine) (slots : List Slot) (address : Address) : Prop where
  forward : engine.cursor ≤ address
  below : address < .last
  reached : ∀ bound ∈ engine.bounds, address < bound.2 ∨ (bound.2 = address ∧ slots = [])

theorem onlyActive_withMain (id : BranchId) : (withMain id).OnlyActive [] where
  nested := nested_withMain id
  ordered := ordered_withMain id
  anchored := anchored_withMain id
  lasting branch hbranch := by
    rw [List.mem_singleton.1 hbranch]
    exact (anchored_withMain id).cursor_lt
  slots_eq branch hbranch := by
    rw [List.mem_singleton.1 hbranch, ite_self]

theorem mem_bounds {engine : Engine} {branch : Branch} (hbranch : branch ∈ engine.branches) :
    (branch.id, branch.stop) ∈ engine.bounds :=
  List.mem_map.2 ⟨branch, hbranch, rfl⟩

theorem bounds_mapSlots (engine : Engine) (slots : Branch → List Slot) :
    (engine.mapSlots slots).bounds = engine.bounds := by
  rw [bounds, mapSlots, List.map_map]
  rfl

theorem bounds_push (engine : Engine) (address : Address) :
    (engine.push address).bounds = engine.bounds := by
  rw [push_eq_mapSlots, bounds_mapSlots]

theorem bounds_dropTop (engine : Engine) : engine.dropTop.bounds = engine.bounds := by
  rw [dropTop_eq_mapSlots, bounds_mapSlots]

theorem bounds_fork (engine : Engine) (stop : Address) :
    (engine.fork stop).bounds = engine.bounds ++ [(engine.nextId, stop)] := by
  rw [bounds, fork, List.map_append]
  rfl

/-- If nothing that is kept has ended, then collecting drops just what has ended. -/
theorem bounds_collect {engine : Engine}
    (hlasting : ∀ branch ∈ engine.collect.branches, engine.cursor < branch.stop) :
    engine.collect.bounds = engine.bounds.filter fun bound => engine.cursor < bound.2 := by
  have hfilter : engine.collect.branches =
      engine.branches.filter fun branch => engine.cursor < branch.stop := by
    rw [collect]
    apply List.filter_congr
    intro branch hbranch
    rw [Bool.eq_iff_iff, kept_iff, decide_eq_true_iff]
    constructor
    · intro hstays
      exact hlasting branch (mem_branches_collect.2 ⟨hbranch, hstays⟩)
    · exact fun hlasts => Or.inr (Or.inl hlasts)
  rw [bounds, hfilter, bounds, List.filter_map]
  rfl

/-- No branch ends on the way to an address that is ahead. -/
theorem Ahead.not_between {engine : Engine} {slots : List Slot} {address : Address}
    (hahead : engine.Ahead slots address) :
    ∀ branch ∈ engine.branches, ¬ (engine.cursor < branch.stop ∧ branch.stop < address) := by
  rintro branch hbranch ⟨_, hbefore⟩
  rcases hahead.reached _ (mem_bounds hbranch) with hlasts | ⟨hends, _⟩
  · exact absurd hbefore (not_lt.2 (le_of_lt hlasts))
  · exact absurd hends (ne_of_lt hbefore)

namespace OnlyActive

variable {engine : Engine} {slots : List Slot} {listing : Listing}

theorem regular (hactive : engine.OnlyActive slots) : engine.Regular where
  ordered := hactive.ordered
  settled branch hbranch hended _ :=
    absurd hended (not_le.2 (hactive.lasting branch hbranch))
  anchored := hactive.anchored

theorem isMerging_eq_false (hactive : engine.OnlyActive slots) {branch : Branch}
    (hbranch : branch ∈ engine.branches) : engine.isMerging branch = false := by
  rw [Bool.eq_false_iff]
  exact fun hmerging =>
    absurd (hactive.lasting branch hbranch) (not_lt.2 (stop_le_of_isMerging hmerging))

theorem mergingTops_eq_nil (hactive : engine.OnlyActive slots) : engine.mergingTops = [] := by
  rw [mergingTops, List.filterMap_eq_nil_iff]
  intro branch hbranch
  rw [hactive.isMerging_eq_false hbranch]
  rfl

theorem active_mem_bounds (hactive : engine.OnlyActive slots) :
    engine.active ∈ engine.bounds.map Prod.fst := by
  obtain ⟨branch, hbranch, hid⟩ := hactive.ordered.active_live
  exact List.mem_map.2 ⟨_, mem_bounds hbranch, hid⟩

theorem exists_activeBranch? (hactive : engine.OnlyActive slots) :
    ∃ branch ∈ engine.branches, engine.activeBranch? = some branch ∧ branch.slots = slots := by
  obtain ⟨branch, hbranch, hid⟩ := hactive.ordered.active_live
  refine ⟨branch, hbranch, hactive.ordered.activeBranch?_eq_some_iff.2 ⟨hbranch, hid⟩, ?_⟩
  rw [hactive.slots_eq branch hbranch, if_pos hid]

/-! ## Slots -/

theorem push (hactive : engine.OnlyActive slots) (address : Address) :
    (engine.push address).OnlyActive (.value address :: slots) where
  nested := hactive.nested.push address
  ordered := hactive.ordered.push address
  anchored := hactive.anchored.push address
  lasting branch hbranch := by
    rw [push_eq_mapSlots] at hbranch
    obtain ⟨held, hheld, rfl⟩ := (mem_mapSlots _).1 hbranch
    exact hactive.lasting held hheld
  slots_eq branch hbranch := by
    rw [push_eq_mapSlots] at hbranch
    obtain ⟨held, hheld, rfl⟩ := (mem_mapSlots _).1 hbranch
    rw [active_push, pushedSlots, hactive.isMerging_eq_false hheld, hactive.slots_eq held hheld]
    split <;> rfl

theorem dropTop {slot : Slot} (hactive : engine.OnlyActive (slot :: slots)) :
    engine.dropTop.OnlyActive slots where
  nested := hactive.nested.dropTop
  ordered := hactive.ordered.dropTop
  anchored := by
    rw [dropTop_eq_mapSlots]
    exact hactive.anchored.mapSlots _
  lasting branch hbranch := by
    rw [dropTop_eq_mapSlots] at hbranch
    obtain ⟨held, hheld, rfl⟩ := (mem_mapSlots _).1 hbranch
    exact hactive.lasting held hheld
  slots_eq branch hbranch := by
    rw [dropTop_eq_mapSlots] at hbranch
    obtain ⟨held, hheld, rfl⟩ := (mem_mapSlots _).1 hbranch
    rw [active_dropTop, droppedSlots, hactive.isMerging_eq_false hheld,
      hactive.slots_eq held hheld]
    by_cases hid : held.id = engine.active
    · simp [hid]
    · simp [hid]

theorem pop_nil (hactive : engine.OnlyActive []) : engine.pop listing =
    (engine, listing, .error (.underflow engine.active (some engine.cursor))) := by
  obtain ⟨branch, _, hlookup, hslots⟩ := hactive.exists_activeBranch?
  rw [pop, hlookup, Option.bind_some, Branch.top?, hslots]
  rfl

theorem pop_cons {slot : Slot} (hactive : engine.OnlyActive (slot :: slots)) :
    engine.pop listing = (engine.dropTop, listing, .ok ⟨slot, none⟩) := by
  obtain ⟨branch, _, hlookup, hslots⟩ := hactive.exists_activeBranch?
  rw [pop, hlookup, Option.bind_some, Branch.top?, hslots, hactive.mergingTops_eq_nil]
  rfl

/-- Slots are taken from the active branch as long as there are any. -/
theorem popSlots {taken : List Slot} (hactive : engine.OnlyActive (taken ++ slots))
    (listing : Listing) (earlier : List Popped) :
    ∃ popped, engine.popSlots listing taken.length earlier =
        (popped, listing, .ok ((taken.map fun slot => ⟨slot, none⟩).reverse ++ earlier)) ∧
      popped.OnlyActive slots ∧ popped.cursor = engine.cursor ∧
      popped.bounds = engine.bounds := by
  induction taken generalizing engine earlier with
  | nil => exact ⟨engine, rfl, hactive, rfl, rfl⟩
  | cons slot rest ih =>
      rw [List.cons_append] at hactive
      obtain ⟨popped, hpops, hpopped, hcursor, hbounds⟩ :=
        ih hactive.dropTop (⟨slot, none⟩ :: earlier)
      refine ⟨popped, ?_, hpopped, hcursor, hbounds.trans engine.bounds_dropTop⟩
      rw [List.length_cons, Engine.popSlots, hactive.pop_cons]
      simp only [hpops, List.map_cons, List.reverse_cons, List.append_assoc,
        List.singleton_append]

theorem popSlots_error (hactive : engine.OnlyActive slots) {count : Nat}
    (hcount : slots.length < count) (listing : Listing) (earlier : List Popped) :
    ∃ stopped, engine.popSlots listing count earlier =
      (stopped, listing, .error (.underflow engine.active (some engine.cursor))) := by
  induction slots generalizing engine count earlier with
  | nil =>
      obtain ⟨more, rfl⟩ := Nat.exists_eq_succ_of_ne_zero (Nat.ne_of_gt hcount)
      refine ⟨engine, ?_⟩
      rw [Engine.popSlots, hactive.pop_nil]
  | cons slot rest ih =>
      obtain ⟨more, rfl⟩ := Nat.exists_eq_succ_of_ne_zero (Nat.ne_of_gt (Nat.zero_lt_of_lt hcount))
      rw [Engine.popSlots, hactive.pop_cons]
      exact ih hactive.dropTop (Nat.lt_of_succ_lt_succ hcount) _

/-! ## Walking on and forking -/

/-- With slots nothing ends, so the walk stays on the active branch. -/
theorem resumed_eq_active (hactive : engine.OnlyActive slots) {address : Address}
    (hahead : engine.Ahead slots address) {outer ended : List Branch} {resumed : Branch}
    (hopened : engine.opened = (outer ++ [resumed]) ++ ended)
    (hended : ∀ branch ∈ ended, branch.stop ≤ address) (hslots : slots ≠ []) :
    resumed.id = engine.active := by
  have hnone : ended = [] := by
    apply List.eq_nil_iff_forall_not_mem.2
    intro branch hbranch
    have hmem := mem_opened.1 (hopened ▸ List.mem_append_right _ hbranch)
    rcases hahead.reached _ (mem_bounds hmem.1) with hlasts | ⟨_, hempty⟩
    · exact absurd (hended branch hbranch) (not_le.2 hlasts)
    · exact hslots hempty
  have hinnermost := hactive.nested.innermost
  rw [hopened, hnone, List.append_nil, List.getLast?_concat] at hinnermost
  exact Option.some.inj hinnermost

/-- A branch that ends is empty, so it is kept only as part of the active chain, and there
nothing has ended. -/
theorem lasting_collect (hactive : engine.OnlyActive slots) {address : Address}
    (hahead : engine.Ahead slots address) {resumed : BranchId}
    (hnested : ({ engine with cursor := address, active := resumed } : Engine).collect.Nested)
    (hregular : ({ engine with cursor := address, active := resumed } : Engine).collect.Regular) :
    ∀ branch ∈ ({ engine with cursor := address, active := resumed } : Engine).collect.branches,
      address < branch.stop := by
  intro branch hbranch
  obtain ⟨hmem, hchain | hlasts | hslots⟩ := mem_branches_collect.1 hbranch
  · rw [← activeChain_collect] at hchain
    exact (hnested.mem_activeChain_iff hregular hbranch).1 hchain
  · exact hlasts
  · rcases hahead.reached _ (mem_bounds hmem) with hlasts | ⟨_, hempty⟩
    · exact hlasts
    · refine absurd ?_ hslots
      rw [hactive.slots_eq branch hmem, hempty, ite_self]

/-- Branches that end are dropped, and the slots stay where the walk goes on. -/
theorem advance (hactive : engine.OnlyActive slots) {address : Address}
    (hahead : engine.Ahead slots address) :
    ∃ moved, engine.advance address = (moved, .ok ()) ∧ moved.OnlyActive slots ∧
      moved.cursor = address ∧
      moved.bounds = engine.bounds.filter fun bound => address < bound.2 := by
  obtain ⟨outer, resumed, ended, hopened, hlasting, hended⟩ :=
    hactive.nested.exists_resumed hactive.regular hahead.below
  have heq := hactive.nested.advance_eq hactive.regular hahead.not_between hopened hlasting hended
  obtain ⟨_, hnested⟩ := hactive.nested.advance hactive.regular
    ⟨hahead.forward, hahead.below, hahead.not_between⟩
  have hregular : (engine.advance address).1.Regular :=
    ⟨hactive.ordered.advance address, settled_advance engine address,
      hactive.anchored.advance hahead.below⟩
  rw [heq] at hnested hregular ⊢
  have hkept := hactive.lasting_collect hahead hnested hregular
  refine ⟨_, rfl, ⟨hnested, hregular.ordered, hregular.anchored, hkept, ?_⟩, rfl,
    bounds_collect hkept⟩
  intro branch hbranch
  rw [hactive.slots_eq branch (mem_branches_collect.1 hbranch).1]
  by_cases hempty : slots = []
  · rw [hempty, ite_self, ite_self]
  · rw [← hactive.resumed_eq_active hahead hopened hended hempty]
    rfl

/-- An arm within all other branches can be forked while everything is empty. -/
theorem fork (hactive : engine.OnlyActive []) {stop : Address} (hopen : engine.cursor < stop)
    (hwithin : ∀ bound ∈ engine.bounds, stop ≤ bound.2) :
    (engine.fork stop).OnlyActive [] where
  nested := by
    obtain ⟨branch, hbranch, hlookup, _⟩ := hactive.exists_activeBranch?
    refine hactive.nested.fork hactive.regular ⟨hopen, ?_⟩
    intro active hactive
    rw [hlookup, Option.mem_some_iff] at hactive
    exact hactive ▸ hwithin _ (mem_bounds hbranch)
  ordered := hactive.ordered.fork stop
  anchored := hactive.anchored.fork stop
  lasting branch hbranch := by
    rcases List.mem_append.1 hbranch with hbranch | hbranch
    · exact hactive.lasting branch hbranch
    · rw [List.mem_singleton.1 hbranch]
      exact hopen
  slots_eq branch hbranch := by
    rw [ite_self]
    rcases List.mem_append.1 hbranch with hbranch | hbranch
    · rw [hactive.slots_eq branch hbranch, ite_self]
    · rw [List.mem_singleton.1 hbranch]

end OnlyActive

end StackLift.Engine
