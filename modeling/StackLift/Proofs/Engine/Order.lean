import Mathlib.Data.List.Nodup
import StackLift.Proofs.Listing.Checked
import StackLift.Stack.Engine

/-!
# The order of branches

Branches are numbered as they are created, and a branch is forked from an older
one.  Numbers therefore fall along every way from a branch to its roots.  The
active branch lies above all of its own roots and below every branch that merges
into it, so a merging branch is never one of the active chain.
-/

namespace StackLift.Engine

/-- Numbers increase along the live branches, every branch but the main one has
an older root, and the active branch is live. -/
structure Ordered (engine : Engine) : Prop where
  increasing : engine.branches.Pairwise fun older newer => older.id < newer.id
  bounded : ∀ branch ∈ engine.branches, branch.id < engine.nextId
  rooted : ∀ branch ∈ engine.branches, branch.id ≠ engine.main →
    ∃ root, branch.root = some root ∧ engine.main ≤ root ∧ root < branch.id
  main_rootless : ∀ branch ∈ engine.branches, branch.id = engine.main →
    branch.root = none
  active_live : ∃ branch ∈ engine.branches, branch.id = engine.active

/-- Gives every branch the slots that a function assigns to it. -/
def mapSlots (engine : Engine) (slots : Branch → List Slot) : Engine :=
  { engine with
    branches := engine.branches.map fun branch => { branch with slots := slots branch } }

/-! ## Pushing and dropping as changes of slots alone -/

/-- The slots of a branch after a push. -/
def pushedSlots (engine : Engine) (address : Address) (branch : Branch) : List Slot :=
  if branch.id = engine.active then .value address :: branch.slots
  else if engine.isMerging branch then .hole :: branch.slots
  else branch.slots

/-- The slots of a branch after the topmost slots have been dropped. -/
def droppedSlots (engine : Engine) (branch : Branch) : List Slot :=
  if branch.id = engine.active ∨ engine.isMerging branch then branch.slots.tail
  else branch.slots

theorem push_eq_mapSlots (engine : Engine) (address : Address) :
    engine.push address = engine.mapSlots (engine.pushedSlots address) := by
  rw [push, mapSlots]
  congr 1
  apply List.map_congr_left
  intro branch _
  simp only [pushedSlots, beq_iff_eq]
  split
  · rfl
  · split <;> rfl

theorem dropTop_eq_mapSlots (engine : Engine) :
    engine.dropTop = engine.mapSlots engine.droppedSlots := by
  rw [dropTop, mapSlots]
  congr 1
  apply List.map_congr_left
  intro branch _
  simp only [droppedSlots, Bool.or_eq_true, beq_iff_eq]
  split <;> rfl

section MapSlots

variable (engine : Engine) (slots : Branch → List Slot)

theorem rootsFrom_map (branches : List Branch) (id : BranchId) :
    rootsFrom (branches.map fun branch => { branch with slots := slots branch }) id =
      rootsFrom branches id := by
  induction branches generalizing id with
  | nil => rfl
  | cons branch older ih =>
      simp only [List.map_cons, rootsFrom]
      split
      · split <;> simp only [ih]
      · exact ih id

@[simp]
theorem activeChain_mapSlots :
    (engine.mapSlots slots).activeChain = engine.activeChain := by
  rw [activeChain, mapSlots, ← List.map_reverse]
  exact rootsFrom_map slots engine.branches.reverse engine.active

/-- Where a root leads to depends neither on what branches hold nor on where the
walk is, as long as the same branches have ended. -/
theorem leadsToActive_congr {left right : Engine} (hactive : left.active = right.active)
    (hmain : left.main = right.main) {branches : List Branch}
    (hclosed : ∀ branch ∈ branches,
      branch.closedAt left.cursor = branch.closedAt right.cursor) (id : BranchId) :
    left.leadsToActive (branches.map fun branch => { branch with slots := slots branch }) id =
      right.leadsToActive branches id := by
  induction branches generalizing id with
  | nil => rw [List.map_nil, leadsToActive, leadsToActive, hactive]
  | cons branch older ih =>
      have holder := ih fun other hother => hclosed other (List.mem_cons_of_mem _ hother)
      have hfirst := hclosed branch List.mem_cons_self
      simp only [List.map_cons, leadsToActive, hactive, hmain, holder, ← hfirst]
      rfl

/-- Which branches merge depends neither on what branches hold nor on where the walk is,
as long as the same branches have ended. -/
theorem isMerging_congr {left right : Engine} (hactive : left.active = right.active)
    (hmain : left.main = right.main)
    (hbranches : left.branches =
      right.branches.map fun branch => { branch with slots := slots branch })
    (hclosed : ∀ branch ∈ right.branches,
      branch.closedAt left.cursor = branch.closedAt right.cursor)
    {branch : Branch} (hbranch : branch ∈ right.branches) (held : List Slot) :
    left.isMerging { branch with slots := held } = right.isMerging branch := by
  have hleads := @leadsToActive_congr slots left right hactive hmain right.branches.reverse
    (fun other hother => hclosed other (List.mem_reverse.1 hother))
    (branch.root.getD right.main)
  rw [isMerging, isMerging, hactive, hmain, hbranches, ← List.map_reverse, hleads,
    ← hclosed branch hbranch]
  rfl

theorem isMerging_mapSlots {branch : Branch} (hbranch : branch ∈ engine.branches)
    (held : List Slot) :
    (engine.mapSlots slots).isMerging { branch with slots := held } = engine.isMerging branch :=
  @isMerging_congr slots (engine.mapSlots slots) engine rfl rfl rfl (fun _ _ => rfl) _ hbranch
    held

theorem mapSlots_slots : engine.mapSlots Branch.slots = engine := by
  rw [mapSlots]
  simp only [List.map_id']

variable {engine}

theorem mapSlots_congr {left right : Branch → List Slot}
    (hslots : ∀ branch ∈ engine.branches, left branch = right branch) :
    engine.mapSlots left = engine.mapSlots right := by
  rw [mapSlots, mapSlots]
  congr 1
  apply List.map_congr_left
  intro branch hbranch
  rw [hslots branch hbranch]

theorem mem_mapSlots {branch : Branch} :
    branch ∈ (engine.mapSlots slots).branches ↔
      ∃ held ∈ engine.branches, { held with slots := slots held } = branch := by
  rw [mapSlots, List.mem_map]

theorem Ordered.mapSlots (hordered : engine.Ordered) :
    (engine.mapSlots slots).Ordered where
  increasing := by
    rw [Engine.mapSlots, List.pairwise_map]
    exact hordered.increasing
  bounded := by
    intro branch hbranch
    obtain ⟨held, hheld, rfl⟩ := (mem_mapSlots slots).1 hbranch
    exact hordered.bounded held hheld
  rooted := by
    intro branch hbranch hmain
    obtain ⟨held, hheld, rfl⟩ := (mem_mapSlots slots).1 hbranch
    exact hordered.rooted held hheld hmain
  main_rootless := by
    intro branch hbranch hmain
    obtain ⟨held, hheld, rfl⟩ := (mem_mapSlots slots).1 hbranch
    exact hordered.main_rootless held hheld hmain
  active_live := by
    obtain ⟨branch, hbranch, hactive⟩ := hordered.active_live
    exact ⟨_, (mem_mapSlots slots).2 ⟨branch, hbranch, rfl⟩, hactive⟩

end MapSlots

/-! ## The active chain -/

theorem rootsFrom_filter {keep : Branch → Bool} {branches : List Branch}
    {id : BranchId}
    (hkeep : ∀ branch ∈ branches, branch.id ∈ rootsFrom branches id →
      keep branch = true) :
    rootsFrom (branches.filter keep) id = rootsFrom branches id := by
  induction branches generalizing id with
  | nil => rfl
  | cons branch older ih =>
      by_cases hid : branch.id = id
      · have hbranch : keep branch = true := by
          apply hkeep branch List.mem_cons_self
          rw [rootsFrom, if_pos (beq_iff_eq.2 hid), hid]
          split <;> exact List.mem_cons_self
        rw [List.filter_cons_of_pos hbranch, rootsFrom, rootsFrom,
          if_pos (beq_iff_eq.2 hid), if_pos (beq_iff_eq.2 hid)]
        split
        · next root hroot =>
          rw [ih]
          intro other hother hchain
          apply hkeep other (List.mem_cons_of_mem _ hother)
          rw [rootsFrom, if_pos (beq_iff_eq.2 hid), hroot]
          exact List.mem_cons_of_mem _ hchain
        · rfl
      · have hskip : ∀ rest : List Branch,
            rootsFrom (branch :: rest) id = rootsFrom rest id := by
          intro rest
          rw [rootsFrom, if_neg (by simpa using hid)]
        have holder : rootsFrom (older.filter keep) id = rootsFrom older id := by
          apply ih
          intro other hother hchain
          apply hkeep other (List.mem_cons_of_mem _ hother)
          rwa [hskip]
        rw [List.filter_cons, hskip, ← holder]
        split
        · exact hskip _
        · rfl

/-- Collecting leaves the active chain as it is. -/
@[simp]
theorem activeChain_collect (engine : Engine) :
    engine.collect.activeChain = engine.activeChain := by
  rw [activeChain, collect, ← List.filter_reverse]
  apply rootsFrom_filter
  intro branch _ hchain
  have hmem : branch.id ∈ engine.activeChain := hchain
  simp [hmem]

theorem mem_rootsFrom_self {branches : List Branch} {branch : Branch}
    (hbranch : branch ∈ branches) : branch.id ∈ rootsFrom branches branch.id := by
  induction branches with
  | nil => cases hbranch
  | cons first older ih =>
      rw [rootsFrom]
      split
      · split <;> exact List.mem_cons_self
      · next hne =>
        rcases List.mem_cons.1 hbranch with rfl | holder
        · simp at hne
        · exact ih holder

/-- Numbers fall along the way to the roots. -/
theorem le_of_mem_rootsFrom {branches : List Branch}
    (hroots : ∀ branch ∈ branches, ∀ root, branch.root = some root →
      root < branch.id) {id chained : BranchId}
    (hchain : chained ∈ rootsFrom branches id) : chained ≤ id := by
  induction branches generalizing id with
  | nil => cases hchain
  | cons branch older ih =>
      have holder : ∀ {start : BranchId}, chained ∈ rootsFrom older start →
          chained ≤ start :=
        ih fun other hother => hroots other (List.mem_cons_of_mem _ hother)
      rw [rootsFrom] at hchain
      split at hchain
      · next hid =>
        rw [beq_iff_eq] at hid
        split at hchain
        · next root hroot =>
          rcases List.mem_cons.1 hchain with rfl | hrest
          · exact Nat.le_refl _
          · have hlt := hroots branch List.mem_cons_self root hroot
            rw [hid] at hlt
            exact Nat.le_of_lt (Nat.lt_of_le_of_lt (holder hrest) hlt)
        · rw [List.mem_singleton] at hchain
          exact Nat.le_of_eq hchain
      · exact holder hchain

namespace Ordered

variable {engine : Engine}

theorem nodup_id (hordered : engine.Ordered) :
    (engine.branches.map Branch.id).Nodup := by
  rw [List.Nodup, List.pairwise_map]
  exact hordered.increasing.imp fun hlt => Nat.ne_of_lt hlt

theorem eq_of_id_eq (hordered : engine.Ordered) {left right : Branch}
    (hleft : left ∈ engine.branches) (hright : right ∈ engine.branches)
    (hid : left.id = right.id) : left = right :=
  List.inj_on_of_nodup_map hordered.nodup_id hleft hright hid

/-- The active branch, with the branches before and after it. -/
theorem split_active (hordered : engine.Ordered) :
    ∃ older active newer, engine.branches = older ++ active :: newer ∧
      active.id = engine.active ∧ engine.activeBranch? = some active ∧
      ∀ branch ∈ older ++ newer, branch.id ≠ engine.active := by
  obtain ⟨active, hactive, hid⟩ := hordered.active_live
  obtain ⟨older, newer, hsplit⟩ := List.append_of_mem hactive
  have hnodup := hordered.nodup_id
  rw [hsplit, List.map_append, List.map_cons, List.nodup_middle,
    List.nodup_cons, hid, ← List.map_append] at hnodup
  have hother : ∀ branch ∈ older ++ newer, branch.id ≠ engine.active := by
    intro branch hbranch heq
    exact hnodup.1 (heq ▸ List.mem_map_of_mem hbranch)
  refine ⟨older, active, newer, hsplit, hid, ?_, hother⟩
  rw [activeBranch?, branch?, hsplit, List.find?_append]
  have holder : (older.find? fun branch => branch.id == engine.active) = none := by
    rw [List.find?_eq_none]
    intro branch hbranch
    simpa using hother branch (List.mem_append_left _ hbranch)
  rw [holder, Option.none_or, List.find?_cons, hid, beq_self_eq_true]

theorem activeBranch?_eq_some_iff (hordered : engine.Ordered) {branch : Branch} :
    engine.activeBranch? = some branch ↔
      branch ∈ engine.branches ∧ branch.id = engine.active := by
  obtain ⟨older, active, newer, hsplit, hid, hactive, hother⟩ := hordered.split_active
  have hmem : active ∈ engine.branches := by
    rw [hsplit]
    exact List.mem_append_right _ List.mem_cons_self
  rw [hactive, Option.some.injEq]
  constructor
  · rintro rfl
    exact ⟨hmem, hid⟩
  · rintro ⟨hbranch, hbranchId⟩
    exact hordered.eq_of_id_eq hmem hbranch (hid.trans hbranchId.symm)

theorem active_mem_activeChain (hordered : engine.Ordered) :
    engine.active ∈ engine.activeChain := by
  obtain ⟨branch, hbranch, hid⟩ := hordered.active_live
  rw [activeChain, ← hid]
  exact mem_rootsFrom_self (List.mem_reverse.2 hbranch)

theorem main_le (hordered : engine.Ordered) {branch : Branch}
    (hbranch : branch ∈ engine.branches) : engine.main ≤ branch.id := by
  by_cases hmain : branch.id = engine.main
  · exact Nat.le_of_eq hmain.symm
  · obtain ⟨root, _, hle, hlt⟩ := hordered.rooted branch hbranch hmain
    exact Nat.le_of_lt (Nat.lt_of_le_of_lt hle hlt)

theorem root_lt (hordered : engine.Ordered) {branch : Branch}
    (hbranch : branch ∈ engine.branches) {root : BranchId}
    (hroot : branch.root = some root) : root < branch.id := by
  by_cases hmain : branch.id = engine.main
  · rw [hordered.main_rootless branch hbranch hmain] at hroot
    cases hroot
  · obtain ⟨older, holder, _, hlt⟩ := hordered.rooted branch hbranch hmain
    rw [hroot, Option.some.injEq] at holder
    rwa [holder]

/-- The active chain holds no branch that is newer than the active one. -/
theorem le_active_of_mem_activeChain (hordered : engine.Ordered) {id : BranchId}
    (hchain : id ∈ engine.activeChain) : id ≤ engine.active := by
  apply le_of_mem_rootsFrom _ hchain
  intro branch hbranch root hroot
  exact hordered.root_lt (List.mem_reverse.1 hbranch) hroot

theorem active_le_of_leadsToActive (hordered : engine.Ordered)
    {branches : List Branch}
    (hlive : ∀ branch ∈ branches, branch ∈ engine.branches) {id : BranchId}
    (hleads : engine.leadsToActive branches id = true) : engine.active ≤ id := by
  induction branches generalizing id with
  | nil => exact Nat.le_of_eq (beq_iff_eq.1 hleads).symm
  | cons branch older ih =>
      have hcons : ∀ other ∈ older, other ∈ engine.branches :=
        fun other hother => hlive other (List.mem_cons_of_mem _ hother)
      rw [leadsToActive] at hleads
      split at hleads
      · next hid => exact Nat.le_of_eq (beq_iff_eq.1 hid).symm
      · split at hleads
        · next hid =>
          rw [beq_iff_eq] at hid
          simp only [Bool.and_eq_true, bne_iff_ne, ne_eq] at hleads
          obtain ⟨⟨hmain, _⟩, hroot⟩ := hleads
          rw [← hid] at hmain
          obtain ⟨root, hsome, _, hlt⟩ :=
            hordered.rooted branch (hlive branch List.mem_cons_self) hmain
          rw [hsome, Option.getD_some] at hroot
          rw [hid] at hlt
          exact Nat.le_of_lt (Nat.lt_of_le_of_lt (ih hcons hroot) hlt)
        · exact ih hcons hleads

/-- A merging branch is newer than the active one. -/
theorem active_lt_of_isMerging (hordered : engine.Ordered) {branch : Branch}
    (hbranch : branch ∈ engine.branches) (hmerging : engine.isMerging branch = true) :
    engine.active < branch.id := by
  rw [isMerging, Bool.and_eq_true, Bool.and_eq_true, bne_iff_ne] at hmerging
  obtain ⟨⟨hne, _⟩, hleads⟩ := hmerging
  have hlive : ∀ other ∈ engine.branches.reverse, other ∈ engine.branches :=
    fun other hother => List.mem_reverse.1 hother
  have hle := hordered.active_le_of_leadsToActive hlive hleads
  by_cases hmain : branch.id = engine.main
  · rw [hordered.main_rootless branch hbranch hmain, Option.getD_none, ← hmain] at hle
    exact Nat.lt_of_le_of_ne hle (Ne.symm hne)
  · obtain ⟨root, hroot, _, hlt⟩ := hordered.rooted branch hbranch hmain
    rw [hroot, Option.getD_some] at hle
    exact Nat.lt_of_le_of_lt hle hlt

theorem notMem_activeChain_of_isMerging (hordered : engine.Ordered)
    {branch : Branch} (hbranch : branch ∈ engine.branches)
    (hmerging : engine.isMerging branch = true) :
    branch.id ∉ engine.activeChain := by
  intro hchain
  exact Nat.not_le_of_lt (hordered.active_lt_of_isMerging hbranch hmerging)
    (hordered.le_active_of_mem_activeChain hchain)

end Ordered

/-! ## What a step can do -/

/-- Walking on moves the cursor and collects.  It may then switch to a live
branch and collect again, or fail because the branch to switch to is gone. -/
theorem advance_cases (engine : Engine) (address : Address) :
    engine.advance address = (({ engine with cursor := address } : Engine).collect, .ok ()) ∨
    (∃ id, (({ engine with cursor := address } : Engine).collect.branch? id).isSome = true ∧
      engine.advance address =
        (({ ({ engine with cursor := address } : Engine).collect with
          active := id } : Engine).collect, .ok ())) ∨
    ∃ id, engine.advance address =
      (({ engine with cursor := address } : Engine).collect,
        .error (.inconsistent address (.rootNotLive id))) := by
  rw [advance]
  generalize hmoved : ({ engine with cursor := address } : Engine).collect = moved
  have hcursor : moved.cursor = address := by
    rw [← hmoved]
    rfl
  simp only
  split
  · split
    · next branch _ =>
      cases hroot : moved.branch? (branch.root.getD moved.main) with
      | some live =>
          right
          left
          refine ⟨branch.root.getD moved.main, by rw [hroot]; rfl, ?_⟩
          simp only [switchTo, hroot]
      | none =>
          right
          right
          refine ⟨branch.root.getD moved.main, ?_⟩
          simp only [switchTo, hroot, hcursor]
    · exact Or.inl rfl
  · exact Or.inl rfl

/-- What holds after moving and collecting, and after each switch to a live
branch from there, holds after walking on. -/
theorem advance_induction {motive : Engine → Prop} (engine : Engine) (address : Address)
    (hmoved : motive ({ engine with cursor := address } : Engine).collect)
    (hswitch : ∀ id,
      (({ engine with cursor := address } : Engine).collect.branch? id).isSome = true →
      motive ({ ({ engine with cursor := address } : Engine).collect with
        active := id } : Engine).collect) :
    motive (engine.advance address).1 := by
  rcases engine.advance_cases address with heq | ⟨id, hlive, heq⟩ | ⟨id, heq⟩
  · rw [heq]
    exact hmoved
  · rw [heq]
    exact hswitch id hlive
  · rw [heq]
    exact hmoved

@[simp]
theorem cursor_advance (engine : Engine) (address : Address) :
    (engine.advance address).1.cursor = address :=
  advance_induction (motive := fun moved => moved.cursor = address) engine address rfl
    fun _ _ => rfl

/-- A pop fails on an empty branch.  Otherwise it drops the topmost slots, and
collects and merges if a merging branch had a slot to give. -/
theorem pop_cases (engine : Engine) (listing : Listing) :
    (engine.activeBranch?.bind Branch.top? = none ∧
      engine.pop listing =
        (engine, listing, .error (.underflow engine.active (some engine.cursor)))) ∨
    (∃ slot, engine.activeBranch?.bind Branch.top? = some slot ∧
      engine.mergingTops = [] ∧
      engine.pop listing = (engine.dropTop, listing, .ok ⟨slot, none⟩)) ∨
    ∃ slot values, engine.activeBranch?.bind Branch.top? = some slot ∧
      values = (if (engine.mergingTops.filterMap Slot.value?).isEmpty then []
        else engine.mergingTops.filterMap Slot.value? ++ slot.value?.toList) ∧
      engine.pop listing = (engine.dropTop.collect,
        (mergeValues engine.cursor listing values).1,
        (mergeValues engine.cursor listing values).2.map fun merge => ⟨slot, merge⟩) := by
  rw [pop]
  cases hslot : engine.activeBranch?.bind Branch.top? with
  | none => exact Or.inl ⟨rfl, rfl⟩
  | some slot =>
      cases htops : engine.mergingTops with
      | nil => exact Or.inr (Or.inl ⟨slot, rfl, rfl, rfl⟩)
      | cons top tops =>
          refine Or.inr (Or.inr ⟨slot, _, rfl, rfl, ?_⟩)
          simp only
          generalize mergeValues engine.cursor listing _ = merged
          obtain ⟨notes, result⟩ := merged
          cases result <;> rfl

/-- What holds before a pop, and after the topmost slots were dropped and the ended
branches collected, holds after the pop.  Nothing is collected if nothing merges. -/
theorem pop_induction {motive : Engine → Prop} (engine : Engine) (listing : Listing)
    (hkept : motive engine) (hdropped : engine.mergingTops = [] → motive engine.dropTop)
    (hcollected : motive engine.dropTop.collect) : motive (engine.pop listing).1 := by
  rcases engine.pop_cases listing with ⟨_, heq⟩ | ⟨slot, _, htops, heq⟩ | ⟨slot, values, _, _, heq⟩
  · rw [heq]
    exact hkept
  · rw [heq]
    exact hdropped htops
  · rw [heq]
    exact hcollected

/-- What a successful pop has taken, and what it has left. -/
theorem pop_eq_ok {engine : Engine} {listing : Listing} {popped : Popped}
    (hpop : (engine.pop listing).2.2 = .ok popped) :
    engine.activeBranch?.bind Branch.top? = some popped.slot ∧
      ((engine.pop listing).1 = engine.dropTop ∨
        (engine.pop listing).1 = engine.dropTop.collect) := by
  rcases engine.pop_cases listing with
    ⟨_, heq⟩ | ⟨slot, hslot, _, heq⟩ | ⟨slot, values, hslot, _, heq⟩
  · rw [heq] at hpop
    cases hpop
  · rw [heq] at hpop ⊢
    cases hpop
    exact ⟨hslot, Or.inl rfl⟩
  · rw [heq] at hpop ⊢
    cases hmerge : (mergeValues engine.cursor listing values).2 with
    | error error =>
        rw [hmerge] at hpop
        cases hpop
    | ok merge =>
        rw [hmerge] at hpop
        cases hpop
        exact ⟨hslot, Or.inr rfl⟩

/-! ## Steps keep the order -/

theorem ordered_withMain (id : BranchId) : (withMain id).Ordered where
  increasing := List.pairwise_singleton _ _
  bounded := by
    intro branch hbranch
    rw [List.mem_singleton.1 hbranch]
    exact Nat.lt_succ_self id
  rooted := by
    intro branch hbranch hmain
    rw [List.mem_singleton.1 hbranch] at hmain
    exact absurd rfl hmain
  main_rootless := by
    intro branch hbranch _
    rw [List.mem_singleton.1 hbranch]
  active_live := ⟨_, List.mem_singleton_self _, rfl⟩

theorem mem_of_branch?_eq_some {engine : Engine} {id : BranchId} {branch : Branch}
    (hbranch : engine.branch? id = some branch) : branch ∈ engine.branches := by
  rw [branch?] at hbranch
  exact List.mem_of_find?_eq_some hbranch

theorem id_of_branch?_eq_some {engine : Engine} {id : BranchId} {branch : Branch}
    (hbranch : engine.branch? id = some branch) : branch.id = id := by
  rw [branch?] at hbranch
  simpa using List.find?_some hbranch

theorem mem_of_mem_collect {engine : Engine} {branch : Branch}
    (hbranch : branch ∈ engine.collect.branches) : branch ∈ engine.branches :=
  (mem_branches_collect.1 hbranch).1

namespace Ordered

variable {engine : Engine}

theorem collect (hordered : engine.Ordered) : engine.collect.Ordered where
  increasing := hordered.increasing.filter _
  bounded branch hbranch := hordered.bounded branch (mem_of_mem_collect hbranch)
  rooted branch hbranch := hordered.rooted branch (mem_of_mem_collect hbranch)
  main_rootless branch hbranch :=
    hordered.main_rootless branch (mem_of_mem_collect hbranch)
  active_live := by
    obtain ⟨branch, hbranch, hid⟩ := hordered.active_live
    refine ⟨branch, mem_branches_collect.2 ⟨hbranch, Or.inl ?_⟩, hid⟩
    rw [hid]
    exact hordered.active_mem_activeChain

theorem setCursor (hordered : engine.Ordered) (address : Address) :
    ({ engine with cursor := address } : Engine).Ordered :=
  ⟨hordered.increasing, hordered.bounded, hordered.rooted, hordered.main_rootless,
    hordered.active_live⟩

theorem setActive (hordered : engine.Ordered) {id : BranchId}
    (hlive : (engine.branch? id).isSome = true) :
    ({ engine with active := id } : Engine).Ordered := by
  refine ⟨hordered.increasing, hordered.bounded, hordered.rooted,
    hordered.main_rootless, ?_⟩
  obtain ⟨branch, hbranch⟩ := Option.isSome_iff_exists.1 hlive
  exact ⟨branch, mem_of_branch?_eq_some hbranch, id_of_branch?_eq_some hbranch⟩

theorem advance (hordered : engine.Ordered) (address : Address) :
    (engine.advance address).1.Ordered :=
  advance_induction engine address (hordered.setCursor address).collect
    fun _ hlive => ((hordered.setCursor address).collect.setActive hlive).collect

theorem push (hordered : engine.Ordered) (address : Address) :
    (engine.push address).Ordered := by
  rw [push_eq_mapSlots]
  exact hordered.mapSlots _

theorem dropTop (hordered : engine.Ordered) : engine.dropTop.Ordered := by
  rw [dropTop_eq_mapSlots]
  exact hordered.mapSlots _

theorem pop (hordered : engine.Ordered) (listing : Listing) :
    (engine.pop listing).1.Ordered :=
  pop_induction engine listing hordered (fun _ => hordered.dropTop) hordered.dropTop.collect

theorem fork (hordered : engine.Ordered) (stop : Address) :
    (engine.fork stop).Ordered where
  increasing := by
    rw [Engine.fork, List.pairwise_append]
    refine ⟨hordered.increasing, List.pairwise_singleton _ _, ?_⟩
    intro older holder newer hnewer
    rw [List.mem_singleton.1 hnewer]
    exact hordered.bounded older holder
  bounded := by
    intro branch hbranch
    rcases List.mem_append.1 hbranch with hold | hnew
    · exact Nat.lt_succ_of_lt (hordered.bounded branch hold)
    · rw [List.mem_singleton.1 hnew]
      exact Nat.lt_succ_self _
  rooted := by
    intro branch hbranch hmain
    rcases List.mem_append.1 hbranch with hold | hnew
    · exact hordered.rooted branch hold hmain
    · rw [List.mem_singleton.1 hnew]
      obtain ⟨active, hactive, hid⟩ := hordered.active_live
      refine ⟨engine.active, rfl, ?_, ?_⟩
      · rw [← hid]
        exact hordered.main_le hactive
      · rw [← hid]
        exact hordered.bounded active hactive
  main_rootless := by
    intro branch hbranch hmain
    rcases List.mem_append.1 hbranch with hold | hnew
    · exact hordered.main_rootless branch hold hmain
    · rw [List.mem_singleton.1 hnew] at hmain
      obtain ⟨active, hactive, _⟩ := hordered.active_live
      have hlt := Nat.lt_of_le_of_lt (hordered.main_le hactive)
        (hordered.bounded active hactive)
      exact absurd hmain.symm (Nat.ne_of_lt hlt)
  active_live := ⟨_, List.mem_append_right _ (List.mem_singleton_self _), rfl⟩

theorem forkAt (hordered : engine.Ordered) (listing : Listing) (address : Address) :
    (engine.forkAt listing address).Ordered := by
  rw [Engine.forkAt]
  split
  · exact hordered.fork _
  · exact hordered

end Ordered

end StackLift.Engine
