import StackLift.Proofs.Engine.Values

/-!
# Loading a value and taking it back

Code that computes one value leaves that value on the branch on which it started.
If the code has arms, then the values of the other arms are left on branches of
their own, which have ended and come back together with the first one.  Popping
the value takes all of them back and leaves the engine as it was before.
-/

namespace StackLift.Engine

/-- Every arm was forked from the root or from an arm before it. -/
inductive Joining (root : BranchId) : List Branch → Prop where
  | nil : Joining root []
  | snoc {arms : List Branch} {arm : Branch} (hearlier : Joining root arms)
    (hroot : arm.root = some root ∨ ∃ other ∈ arms, arm.root = some other.id) :
    Joining root (arms ++ [arm])

/-- The engine is at an address and no branch ends between there and a horizon. -/
structure Ready (engine : Engine) (start horizon : Nat) : Prop where
  cursor : engine.cursor.toNat = start
  parted : ∀ branch ∈ engine.branches,
    branch.stop.toNat ≤ start ∨ horizon ≤ branch.stop.toNat
  lasting : ∀ branch ∈ engine.branches, branch.id ∈ engine.activeChain →
    horizon ≤ branch.stop.toNat
  ordered : engine.Ordered
  settled : engine.Settled

/-- Each arm has ended and holds one of the values. -/
structure Arms (root : BranchId) (values : List Address) (last : Nat)
    (arms : List Branch) : Prop where
  slots : arms.map Branch.slots = values.map fun value => [.value value]
  ended : ∀ arm ∈ arms, arm.stop.toNat ≤ last
  joining : Joining root arms

theorem Arms.slots_of_mem {root : BranchId} {values : List Address} {last : Nat}
    {arms : List Branch} (harms : Arms root values last arms) {arm : Branch}
    (harm : arm ∈ arms) : ∃ value, arm.slots = [.value value] := by
  have hslots : arm.slots ∈ values.map fun value => [.value value] :=
    harms.slots ▸ List.mem_map_of_mem harm
  obtain ⟨value, _, heq⟩ := List.mem_map.1 hslots
  exact ⟨value, heq.symm⟩

theorem Arms.mono {root : BranchId} {values : List Address} {last later : Nat}
    {arms : List Branch} (harms : Arms root values last arms) (hle : last ≤ later) :
    Arms root values later arms :=
  ⟨harms.slots, fun arm harm => Nat.le_trans (harms.ended arm harm) hle, harms.joining⟩

/-- The engine with one more value and the arms of its alternatives. -/
def load (engine : Engine) (value : Address) (arms : List Branch) : Engine :=
  { engine.push value with branches := (engine.push value).branches ++ arms }

/-- The engine at another address, where other branches have been forked before. -/
def moveTo (engine : Engine) (cursor : Address) (nextId : BranchId) : Engine :=
  { engine with cursor, nextId }

theorem moveTo_moveTo (engine : Engine) (cursor last : Address) (nextId lastId : BranchId) :
    (engine.moveTo cursor nextId).moveTo last lastId = engine.moveTo last lastId := rfl

theorem Joining.append {root : BranchId} {arms more : List Branch} {arm : Branch}
    (harms : Joining root arms) (harm : arm ∈ arms) (hmore : Joining arm.id more) :
    Joining root (arms ++ more) := by
  induction hmore with
  | nil => rwa [List.append_nil]
  | snoc _ hroot ih =>
      rw [← List.append_assoc]
      refine .snoc ih (Or.inr ?_)
      rcases hroot with hroot | ⟨other, hother, hroot⟩
      · exact ⟨arm, List.mem_append_left _ harm, hroot⟩
      · exact ⟨other, List.mem_append_right _ hother, hroot⟩

/-- An arm and the arms that come back together with it. -/
theorem Arms.append {root : BranchId} {values others : List Address} {value : Address}
    {last : Nat} {arms more : List Branch} {arm : Branch} (harms : Arms root values last arms)
    (hroot : arm.root = some root) (hslots : arm.slots = [.value value])
    (hstop : arm.stop.toNat ≤ last) (hmore : Arms arm.id others last more) :
    Arms root (values ++ value :: others) last (arms ++ arm :: more) where
  slots := by
    rw [List.map_append, List.map_cons, List.map_append, List.map_cons, harms.slots, hslots,
      hmore.slots]
  ended := by
    intro other hother
    rcases List.mem_append.1 hother with hother | hother
    · exact harms.ended other hother
    · rcases List.mem_cons.1 hother with rfl | hother
      · exact hstop
      · exact hmore.ended other hother
  joining := by
    have hjoining : Joining root (arms ++ [arm]) := .snoc harms.joining (Or.inl hroot)
    rw [List.append_cons]
    exact hjoining.append (List.mem_append_right _ (List.mem_singleton_self _)) hmore.joining

theorem Joining.root_of_mem {root : BranchId} {arms : List Branch} {arm : Branch}
    (hjoining : Joining root arms) (harm : arm ∈ arms) :
    ∃ id, arm.root = some id ∧ (id = root ∨ ∃ other ∈ arms, id = other.id) := by
  induction hjoining with
  | nil => cases harm
  | snoc _ hroot ih =>
      rcases List.mem_append.1 harm with harm | harm
      · obtain ⟨id, hid, heq | ⟨other, hother, heq⟩⟩ := ih harm
        · exact ⟨id, hid, Or.inl heq⟩
        · exact ⟨id, hid, Or.inr ⟨other, List.mem_append_left _ hother, heq⟩⟩
      · rw [List.mem_singleton.1 harm]
        rcases hroot with hroot | ⟨other, hother, hroot⟩
        · exact ⟨_, hroot, Or.inl rfl⟩
        · exact ⟨_, hroot, Or.inr ⟨other, List.mem_append_left _ hother, rfl⟩⟩

theorem closedAt_iff {branch : Branch} {cursor : Address} :
    branch.closedAt cursor = true ↔ branch.stop.toNat ≤ cursor.toNat := by
  rw [Branch.closedAt, decide_eq_true_iff, Address.le_iff_toNat_le]

/-- Which branches collecting keeps. -/
theorem kept_iff {chain : List BranchId} {cursor : Address} {branch : Branch} :
    (chain.contains branch.id || !(branch.closedAt cursor && branch.isEmpty)) = true ↔
      branch.id ∈ chain ∨ cursor < branch.stop ∨ branch.slots ≠ [] := by
  rw [← not_le]
  simp [Branch.closedAt, Branch.isEmpty]

/-! ## Roots of branches that were forked later -/

section Append

variable (engine : Engine)

theorem leadsToActive_active (branches : List Branch) :
    engine.leadsToActive branches engine.active = true := by
  cases branches with
  | nil => exact beq_self_eq_true _
  | cons branch older => rw [leadsToActive, if_pos (beq_self_eq_true _)]

theorem leadsToActive_append {newer older : List Branch} {id : BranchId}
    (hnewer : ∀ branch ∈ newer, branch.id ≠ id) :
    engine.leadsToActive (newer ++ older) id = engine.leadsToActive older id := by
  induction newer with
  | nil => rfl
  | cons branch rest ih =>
      have hrest := ih fun other hother => hnewer other (List.mem_cons_of_mem _ hother)
      have hne := hnewer branch List.mem_cons_self
      by_cases hactive : id = engine.active
      · rw [hactive, leadsToActive_active, leadsToActive_active]
      · rw [List.cons_append, leadsToActive, if_neg (by simpa using hactive),
          if_neg (by simpa using hne), hrest]

theorem rootsFrom_append {newer older : List Branch} {id : BranchId}
    (hnewer : ∀ branch ∈ newer, branch.id ≠ id) :
    rootsFrom (newer ++ older) id = rootsFrom older id := by
  induction newer with
  | nil => rfl
  | cons branch rest ih =>
      rw [List.cons_append, rootsFrom,
        if_neg (by simpa using hnewer branch List.mem_cons_self)]
      exact ih fun other hother => hnewer other (List.mem_cons_of_mem _ hother)

/-- Arms that have ended come back together with the active branch. -/
theorem Joining.leadsToActive {arms older : List Branch} (hjoining : Joining engine.active arms)
    (hended : ∀ arm ∈ arms, arm.id ≠ engine.main ∧ arm.closedAt engine.cursor = true)
    {id : BranchId} (hid : id = engine.active ∨ ∃ other ∈ arms, id = other.id) :
    engine.leadsToActive (arms.reverse ++ older) id = true := by
  induction hjoining generalizing id with
  | nil =>
      rcases hid with rfl | ⟨other, hother, _⟩
      · exact engine.leadsToActive_active _
      · cases hother
  | @snoc arms arm _ hroot ih =>
      have hearlier := @ih fun other hother =>
        hended other (List.mem_append_left _ hother)
      rw [List.reverse_append, List.reverse_singleton, List.singleton_append,
        List.cons_append]
      by_cases hactive : id = engine.active
      · rw [hactive]
        exact engine.leadsToActive_active _
      · rw [Engine.leadsToActive, if_neg (by simpa using hactive)]
        obtain ⟨hmain, hclosed⟩ :=
          hended arm (List.mem_append_right _ (List.mem_singleton_self _))
        by_cases harm : arm.id = id
        · rw [if_pos (beq_iff_eq.2 harm), hclosed, ← harm, bne_iff_ne.2 hmain]
          rcases hroot with hroot | ⟨other, hother, hroot⟩
          · rw [hroot]
            exact hearlier (Or.inl rfl)
          · rw [hroot]
            exact hearlier (Or.inr ⟨other, hother, rfl⟩)
        · rw [if_neg (by simpa using harm)]
          apply hearlier
          right
          obtain ⟨other, hother, heq⟩ := hid.resolve_left hactive
          rcases List.mem_append.1 hother with hother | hother
          · exact ⟨other, hother, heq⟩
          · rw [List.mem_singleton.1 hother] at heq
            exact absurd heq.symm harm

end Append

/-! ## A loaded engine -/

section Load

variable {base : Engine} {start horizon : Nat} {value cursor : Address}
  {values : List Address} {arms : List Branch} {nextId : BranchId}

theorem branches_load (base : Engine) (value : Address) (arms : List Branch) :
    (base.load value arms).branches = base.branches.map
      (fun branch => { branch with slots := base.pushedSlots value branch }) ++ arms := by
  rw [load, push_eq_mapSlots, mapSlots]

theorem Ready.closedAt_eq (hready : base.Ready start horizon)
    (hstart : start ≤ cursor.toNat) (hhorizon : cursor.toNat < horizon) {branch : Branch}
    (hbranch : branch ∈ base.branches) :
    branch.closedAt cursor = branch.closedAt base.cursor := by
  rw [Bool.eq_iff_iff, closedAt_iff, closedAt_iff, hready.cursor]
  have hparted := hready.parted branch hbranch
  omega

/-- Arms are newer than what was there before them. -/
theorem lt_arm (hincreasing : (base.load value arms).branches.Pairwise
      fun older newer => older.id < newer.id) {branch arm : Branch}
    (hbranch : branch ∈ base.branches) (harm : arm ∈ arms) : branch.id < arm.id := by
  rw [branches_load, List.pairwise_append] at hincreasing
  exact hincreasing.2.2 _ (List.mem_map_of_mem hbranch) arm harm

theorem rootD_ne_arm (hincreasing : (base.load value arms).branches.Pairwise
      fun older newer => older.id < newer.id) (hbase : base.Ordered) {branch arm : Branch}
    (hbranch : branch ∈ base.branches) (harm : arm ∈ arms) :
    arm.id ≠ branch.root.getD base.main := by
  have hlt := lt_arm hincreasing hbranch harm
  apply Nat.ne_of_gt
  cases hroot : branch.root with
  | none => exact Nat.lt_of_le_of_lt (hbase.main_le hbranch) hlt
  | some root => exact Nat.lt_trans (hbase.root_lt hbranch hroot) hlt

theorem isMerging_load (hready : base.Ready start horizon)
    (hordered : ((base.load value arms).moveTo cursor nextId).Ordered)
    (hstart : start ≤ cursor.toNat) (hhorizon : cursor.toNat < horizon) {branch : Branch}
    (hbranch : branch ∈ base.branches) (held : List Slot) :
    ((base.load value arms).moveTo cursor nextId).isMerging { branch with slots := held } =
      base.isMerging branch := by
  have hclosed := hready.closedAt_eq hstart hhorizon hbranch
  have hleads : ((base.load value arms).moveTo cursor nextId).leadsToActive
      (base.load value arms).branches.reverse (branch.root.getD base.main) =
        base.leadsToActive base.branches.reverse (branch.root.getD base.main) := by
    rw [branches_load, List.reverse_append, leadsToActive_append, ← List.map_reverse]
    · apply leadsToActive_congr
      · rfl
      · rfl
      · intro other hother
        exact hready.closedAt_eq hstart hhorizon (List.mem_reverse.1 hother)
    · intro arm harm
      exact rootD_ne_arm hordered.increasing hready.ordered hbranch (List.mem_reverse.1 harm)
  rw [isMerging, isMerging, ← hclosed, ← hleads]
  rfl

/-- All arms come back together with the active branch. -/
theorem isMerging_arm (hready : base.Ready start horizon)
    (hordered : ((base.load value arms).moveTo cursor nextId).Ordered)
    (harms : Arms base.active values cursor.toNat arms) {arm : Branch} (harm : arm ∈ arms) :
    ((base.load value arms).moveTo cursor nextId).isMerging arm = true := by
  obtain ⟨active, hactive, hid⟩ := hready.ordered.active_live
  have hended : ∀ other ∈ arms, other.id ≠ base.main ∧ other.closedAt cursor = true := by
    intro other hother
    refine ⟨?_, closedAt_iff.2 (harms.ended other hother)⟩
    exact Nat.ne_of_gt (Nat.lt_of_le_of_lt (hready.ordered.main_le hactive)
      (lt_arm hordered.increasing hactive hother))
  have hactiveId : arm.id ≠ base.active := by
    rw [← hid]
    exact Nat.ne_of_gt (lt_arm hordered.increasing hactive harm)
  obtain ⟨id, hroot, hjoins⟩ := harms.joining.root_of_mem harm
  have hleads : ((base.load value arms).moveTo cursor nextId).leadsToActive
      (base.load value arms).branches.reverse id = true := by
    rw [branches_load, List.reverse_append]
    exact Joining.leadsToActive ((base.load value arms).moveTo cursor nextId)
      harms.joining hended hjoins
  rw [isMerging, hroot, Option.getD_some]
  change (arm.id != base.active && arm.closedAt cursor && _) = true
  rw [bne_iff_ne.2 hactiveId, (hended arm harm).2]
  exact hleads

theorem waiting_load (hready : base.Ready start horizon)
    (hordered : ((base.load value arms).moveTo cursor nextId).Ordered)
    (harms : Arms base.active values cursor.toNat arms)
    (hstart : start ≤ cursor.toNat) (hhorizon : cursor.toNat < horizon) :
    ((base.load value arms).moveTo cursor nextId).mergingTops.filterMap Slot.value? =
      values := by
  have htops : ∀ arm ∈ arms, (if ((base.load value arms).moveTo cursor nextId).isMerging arm
      then arm.top? else none) = arm.top? := by
    intro arm harm
    rw [isMerging_arm hready hordered harms harm, if_pos rfl]
  have hvalues : arms.filterMap Branch.top? = values.map Slot.value := by
    have hheads : arms.filterMap Branch.top? = (arms.map Branch.slots).filterMap List.head? := by
      rw [List.filterMap_map]
      rfl
    rw [hheads, harms.slots, List.filterMap_map]
    exact List.filterMap_eq_map_iff_forall_eq_some.2 fun _ _ => rfl
  have holder : ((base.branches.map
      fun branch => ({ branch with slots := base.pushedSlots value branch } : Branch)).filterMap
        fun branch => if ((base.load value arms).moveTo cursor nextId).isMerging branch then
          branch.top? else none).filterMap Slot.value? = [] := by
    rw [List.filterMap_eq_nil_iff]
    intro slot hslot
    obtain ⟨loaded, hloaded, htop⟩ := List.mem_filterMap.1 hslot
    obtain ⟨branch, hbranch, rfl⟩ := List.mem_map.1 hloaded
    rw [isMerging_load hready hordered hstart hhorizon hbranch] at htop
    split at htop
    · -- a branch that merged before has got a hole beside the value
      next hmerging =>
      have hactive : branch.id ≠ base.active :=
        Nat.ne_of_gt (hready.ordered.active_lt_of_isMerging hbranch hmerging)
      rw [Branch.top?, pushedSlots, if_neg hactive, if_pos hmerging, List.head?_cons,
        Option.some.injEq] at htop
      rw [← htop]
      rfl
    · cases htop
  have hbranches : ((base.load value arms).moveTo cursor nextId).branches =
      base.branches.map (fun branch => { branch with slots := base.pushedSlots value branch }) ++
        arms := branches_load base value arms
  rw [mergingTops, hbranches, List.filterMap_append, List.filterMap_append, holder,
    List.nil_append, List.filterMap_congr htops, hvalues, List.filterMap_map]
  exact List.filterMap_some

theorem dropTop_load (hready : base.Ready start horizon)
    (hordered : ((base.load value arms).moveTo cursor nextId).Ordered)
    (harms : Arms base.active values cursor.toNat arms)
    (hstart : start ≤ cursor.toNat) (hhorizon : cursor.toNat < horizon) :
    ((base.load value arms).moveTo cursor nextId).dropTop =
      { base.moveTo cursor nextId with
        branches := base.branches ++ arms.map fun arm => { arm with slots := [] } } := by
  have holder : ∀ branch ∈ base.branches, ((base.load value arms).moveTo cursor
      nextId).droppedSlots { branch with slots := base.pushedSlots value branch } =
        branch.slots := by
    intro branch hbranch
    rw [droppedSlots, isMerging_load hready hordered hstart hhorizon hbranch, pushedSlots]
    change (if branch.id = base.active ∨ base.isMerging branch then _ else _) = _
    by_cases hactive : branch.id = base.active
    · rw [if_pos (Or.inl hactive), if_pos hactive, List.tail_cons]
    · by_cases hmerging : base.isMerging branch
      · rw [if_pos (Or.inr hmerging), if_neg hactive, if_pos hmerging, List.tail_cons]
      · rw [if_neg (not_or.2 ⟨hactive, hmerging⟩), if_neg hactive, if_neg hmerging]
  have harm : ∀ arm ∈ arms,
      ((base.load value arms).moveTo cursor nextId).droppedSlots arm = [] := by
    intro arm harm
    rw [droppedSlots, if_pos (Or.inr (isMerging_arm hready hordered harms harm))]
    obtain ⟨held, hslots⟩ := harms.slots_of_mem harm
    rw [hslots, List.tail_cons]
  rw [dropTop_eq_mapSlots, mapSlots]
  have hbranches : ((base.load value arms).moveTo cursor nextId).branches =
      base.branches.map (fun branch => { branch with slots := base.pushedSlots value branch }) ++
        arms := branches_load base value arms
  rw [hbranches, List.map_append, List.map_map]
  have hsame : base.branches.map ((fun branch => ({ branch with slots :=
      ((base.load value arms).moveTo cursor nextId).droppedSlots branch } : Branch)) ∘
        fun branch => { branch with slots := base.pushedSlots value branch }) =
      base.branches := by
    conv_rhs => rw [← List.map_id base.branches]
    apply List.map_congr_left
    intro branch hbranch
    simp only [Function.comp_apply, holder branch hbranch, id_eq]
  rw [hsame]
  have hends : arms.map (fun branch => ({ branch with slots :=
      ((base.load value arms).moveTo cursor nextId).droppedSlots branch } : Branch)) =
      arms.map fun arm => { arm with slots := [] } := by
    apply List.map_congr_left
    intro arm hmem
    rw [harm arm hmem]
  rw [hends]
  rfl

theorem Ready.kept (hready : base.Ready start horizon) (hhorizon : cursor.toNat < horizon)
    {branch : Branch} (hbranch : branch ∈ base.branches) :
    branch.id ∈ base.activeChain ∨ cursor < branch.stop ∨ branch.slots ≠ [] := by
  by_cases hslots : branch.slots = []
  · rcases hready.parted branch hbranch with hended | hopen
    · left
      apply hready.settled branch hbranch _ hslots
      rw [Address.le_iff_toNat_le, hready.cursor]
      exact hended
    · right
      left
      rw [Address.lt_iff_toNat_lt]
      exact Nat.lt_of_lt_of_le hhorizon hopen
  · exact Or.inr (Or.inr hslots)

theorem activeChain_append {engine : Engine} {newer : List Branch}
    (hnewer : ∀ branch ∈ newer, branch.id ≠ engine.active) :
    ({ engine with branches := engine.branches ++ newer } : Engine).activeChain =
      engine.activeChain := by
  rw [activeChain, List.reverse_append]
  apply rootsFrom_append
  intro branch hbranch
  exact hnewer branch (List.mem_reverse.1 hbranch)

/-- Once the arms are empty, they are dropped and all else is kept. -/
theorem collect_append (hready : base.Ready start horizon)
    (hhorizon : cursor.toNat < horizon)
    (hnewer : ∀ branch ∈ base.branches, ∀ arm ∈ arms, branch.id < arm.id)
    (hended : ∀ arm ∈ arms, arm.stop.toNat ≤ cursor.toNat ∧ arm.slots = []) :
    ({ base.moveTo cursor nextId with branches := base.branches ++ arms } : Engine).collect =
      base.moveTo cursor nextId := by
  obtain ⟨active, hactive, hid⟩ := hready.ordered.active_live
  have hchain : ({ base.moveTo cursor nextId with
      branches := base.branches ++ arms } : Engine).activeChain = base.activeChain := by
    refine @activeChain_append (base.moveTo cursor nextId) arms ?_
    intro arm harm
    change arm.id ≠ base.active
    rw [← hid]
    exact Nat.ne_of_gt (hnewer active hactive arm harm)
  have holder : base.branches.filter (fun branch => base.activeChain.contains branch.id ||
      !(branch.closedAt cursor && branch.isEmpty)) = base.branches :=
    List.filter_eq_self.2 fun branch hbranch => kept_iff.2 (hready.kept hhorizon hbranch)
  have hnone : arms.filter (fun branch => base.activeChain.contains branch.id ||
      !(branch.closedAt cursor && branch.isEmpty)) = [] := by
    rw [List.filter_eq_nil_iff]
    intro arm harm
    obtain ⟨hstop, hslots⟩ := hended arm harm
    rw [kept_iff]
    rintro (hmem | hopen | hheld)
    · have hle := hready.ordered.le_active_of_mem_activeChain hmem
      rw [← hid] at hle
      exact Nat.not_le_of_lt (hnewer active hactive arm harm) hle
    · exact Nat.not_lt_of_le hstop (Address.lt_iff_toNat_lt.1 hopen)
    · exact hheld hslots
  rw [collect, hchain]
  simp only [List.filter_append]
  change ({ base.moveTo cursor nextId with branches := _ ++ _ } : Engine) = _
  rw [moveTo]
  simp only [holder, hnone, List.append_nil]

theorem top?_load (hready : base.Ready start horizon)
    (hordered : ((base.load value arms).moveTo cursor nextId).Ordered) :
    ((base.load value arms).moveTo cursor nextId).activeBranch?.bind Branch.top? =
      some (.value value) := by
  obtain ⟨active, hactive, hid⟩ := hready.ordered.active_live
  have hloaded : ({ active with slots := base.pushedSlots value active } : Branch) ∈
      ((base.load value arms).moveTo cursor nextId).branches := by
    change _ ∈ (base.load value arms).branches
    rw [branches_load]
    exact List.mem_append_left _ (List.mem_map_of_mem hactive)
  rw [hordered.activeBranch?_eq_some_iff.2 ⟨hloaded, hid⟩, Option.bind_some, Branch.top?,
    pushedSlots, if_pos hid, List.head?_cons]

/-- Popping takes back a value and its alternatives. -/
theorem pop_load (hready : base.Ready start horizon)
    (hordered : ((base.load value arms).moveTo cursor nextId).Ordered)
    (harms : Arms base.active values cursor.toNat arms)
    (hstart : start ≤ cursor.toNat) (hhorizon : cursor.toNat < horizon)
    (listing : Listing) :
    ((base.load value arms).moveTo cursor nextId).pop listing =
      (base.moveTo cursor nextId,
        (mergeValues cursor listing (if values = [] then [] else values ++ [value])).1,
        (mergeValues cursor listing (if values = [] then [] else values ++ [value])).2.map
          fun merge => ⟨.value value, merge⟩) := by
  have hwaiting := waiting_load hready hordered harms hstart hhorizon
  have hdropped := dropTop_load hready hordered harms hstart hhorizon
  have hcollected : ({ base.moveTo cursor nextId with
      branches := base.branches ++ arms.map fun arm => { arm with slots := [] } } :
      Engine).collect = base.moveTo cursor nextId := by
    apply collect_append hready hhorizon
    · intro branch hbranch arm harm
      obtain ⟨other, hother, rfl⟩ := List.mem_map.1 harm
      have hlt := lt_arm hordered.increasing hbranch hother
      exact hlt
    · intro arm harm
      obtain ⟨other, hother, rfl⟩ := List.mem_map.1 harm
      exact ⟨harms.ended other hother, rfl⟩
  have htop := top?_load hready hordered
  rcases ((base.load value arms).moveTo cursor nextId).pop_cases listing with
    ⟨hslot, _⟩ | ⟨slot, hslot, htops, heq⟩ | ⟨slot, merged, hslot, hmerged, heq⟩
  · rw [htop] at hslot
    cases hslot
  · rw [htop, Option.some.injEq] at hslot
    rw [htops, List.filterMap_nil] at hwaiting
    -- every arm holds a value, so if no value waits there is no arm
    have hnone : arms = [] := by
      have hslots := harms.slots
      rw [← hwaiting, List.map_nil, List.map_eq_nil_iff] at hslots
      exact hslots
    rw [heq, hdropped, ← hslot, ← hwaiting, hnone, if_pos rfl, mergeValues_nil,
      List.map_nil, List.append_nil]
    rfl
  · rw [htop, Option.some.injEq] at hslot
    have hvalues : merged = if values = [] then [] else values ++ [value] := by
      rw [hmerged, hwaiting, ← hslot]
      simp only [List.isEmpty_iff]
      rfl
    rw [heq, hdropped, hcollected, hvalues, ← hslot]
    rfl

/-- The value and its alternatives are on the stacks. -/
theorem mem_values_load (hready : base.Ready start horizon) {last : Nat}
    (harms : Arms base.active values last arms) {held : Address}
    (hheld : held ∈ values ++ [value]) : held ∈ (base.load value arms).values := by
  rw [Engine.values, List.mem_flatMap]
  rcases List.mem_append.1 hheld with hheld | hheld
  · have hslots : [Slot.value held] ∈ arms.map Branch.slots := by
      rw [harms.slots]
      exact List.mem_map_of_mem hheld
    obtain ⟨arm, harm, heq⟩ := List.mem_map.1 hslots
    refine ⟨arm, ?_, ?_⟩
    · rw [branches_load]
      exact List.mem_append_right _ harm
    · rw [Branch.values, heq]
      exact List.mem_singleton_self _
  · obtain ⟨own, hown, hid⟩ := hready.ordered.active_live
    refine ⟨{ own with slots := base.pushedSlots value own }, ?_, ?_⟩
    · rw [branches_load]
      exact List.mem_append_left _ (List.mem_map_of_mem hown)
    · rw [Branch.values, pushedSlots, if_pos hid, List.mem_singleton.1 hheld]
      exact List.mem_cons_self

end Load

end StackLift.Engine
