import StackLift.Proofs.Engine.Load

/-!
# Walking on behind a value

Where the code of a value ends, the arms that it was computed on end as well, and the
walk goes on with the branch on which the code started.  Code that leaves no value is
walked through on one branch, and the jump past the second arm of a choice forks the
branch of that arm.
-/

namespace StackLift.Engine

/-- A branch is the root itself, or reached from it through arms that end at an
address. -/
inductive Tail (stop : Address) : BranchId → List Branch → BranchId → Prop where
  | root (root : BranchId) (arms : List Branch) : Tail stop root arms root
  | arm {root active : BranchId} (before : List Branch) {arm : Branch}
    {after : List Branch} (hroot : arm.root = some root) (hstop : arm.stop = stop)
    (hrest : Tail stop arm.id after active) : Tail stop root (before ++ arm :: after) active

/-- The engine with another active branch. -/
def resume (engine : Engine) (active : BranchId) : Engine :=
  { engine with active }

section Load

variable {base : Engine} {start horizon : Nat} {value cursor : Address}
  {values : List Address} {arms : List Branch} {nextId : BranchId}

theorem collect_eq_self {engine : Engine} (hkept : ∀ branch ∈ engine.branches,
    branch.id ∈ engine.activeChain ∨ engine.cursor < branch.stop ∨ branch.slots ≠ []) :
    engine.collect = engine := by
  rw [collect]
  simp only [List.filter_eq_self.2 fun branch hbranch => kept_iff.2 (hkept branch hbranch)]

theorem rootsFrom_arm {root : BranchId} {arm : Branch} (hroot : arm.root = some root)
    (older : List Branch) {before : List Branch}
    (hbefore : ∀ other ∈ before, other.id ≠ root) :
    rootsFrom (older ++ (before ++ [arm])).reverse arm.id =
      arm.id :: rootsFrom older.reverse root := by
  rw [List.reverse_append, List.reverse_append, List.reverse_singleton,
    List.singleton_append, List.cons_append, rootsFrom, if_pos (beq_self_eq_true _), hroot]
  simp only [List.cons.injEq, true_and]
  apply rootsFrom_append
  intro other hother
  exact hbefore other (List.mem_reverse.1 hother)

/-- The chain of a branch behind the arms goes through some of the arms and then on
as before. -/
theorem Tail.rootsFrom {stop : Address} {root active : BranchId} {arms : List Branch}
    (htail : Tail stop root arms active) (older : List Branch)
    (hincreasing : (older ++ arms).Pairwise fun older newer => older.id < newer.id)
    (hroot : ∀ arm ∈ arms, root < arm.id) :
    ∃ behind, Engine.rootsFrom (older ++ arms).reverse active =
        behind ++ Engine.rootsFrom older.reverse root ∧
      ∀ id ∈ behind, ∃ arm ∈ arms, arm.id = id := by
  induction htail generalizing older with
  | root root arms =>
      refine ⟨[], ?_, by simp⟩
      rw [List.reverse_append, List.nil_append]
      apply rootsFrom_append
      intro arm harm
      exact Nat.ne_of_gt (hroot arm (List.mem_reverse.1 harm))
  | @arm root active before arm after harm hstop hrest ih =>
      have hnewer : ∀ later ∈ after, arm.id < later.id := by
        rw [← List.append_assoc, List.pairwise_append, List.pairwise_cons] at hincreasing
        exact hincreasing.2.1.1
      have hsplit : older ++ (before ++ arm :: after) =
          (older ++ (before ++ [arm])) ++ after := by simp
      obtain ⟨behind, hchain, hbehind⟩ := ih (older ++ (before ++ [arm]))
        (hsplit ▸ hincreasing) hnewer
      refine ⟨behind ++ [arm.id], ?_, ?_⟩
      · rw [hsplit, hchain, List.append_assoc]
        congr 1
        apply rootsFrom_arm harm older
        intro other hother
        exact Nat.ne_of_gt (hroot other (List.mem_append_left _ hother))
      · intro id hid
        rcases List.mem_append.1 hid with hid | hid
        · obtain ⟨later, hlater, heq⟩ := hbehind id hid
          exact ⟨later, List.mem_append_right _ (List.mem_cons_of_mem _ hlater), heq⟩
        · rw [List.mem_singleton.1 hid]
          exact ⟨arm, List.mem_append_right _ List.mem_cons_self, rfl⟩

theorem Tail.exists_arm {stop : Address} {root active : BranchId} {arms : List Branch}
    (htail : Tail stop root arms active) :
    active = root ∨ ∃ arm ∈ arms, arm.id = active ∧ arm.stop = stop := by
  induction htail with
  | root root arms => exact Or.inl rfl
  | @arm root active before arm after hroot hstop hrest ih =>
      right
      rcases ih with heq | ⟨other, hother, heq⟩
      · exact ⟨arm, List.mem_append_right _ List.mem_cons_self, heq.symm, hstop⟩
      · exact ⟨other, List.mem_append_right _ (List.mem_cons_of_mem _ hother), heq⟩

/-- The loaded branches as the engine finds them when it walks on. -/
theorem mem_load {branch : Branch} :
    branch ∈ (base.load value arms).branches ↔
      (∃ held ∈ base.branches,
        { held with slots := base.pushedSlots value held } = branch) ∨ branch ∈ arms := by
  rw [branches_load, List.mem_append, List.mem_map]

theorem pushedSlots_ne_nil (base : Engine) (value : Address) {branch : Branch}
    (hslots : branch.slots ≠ []) : base.pushedSlots value branch ≠ [] := by
  rw [pushedSlots]
  split
  · exact List.cons_ne_nil _ _
  · split
    · exact List.cons_ne_nil _ _
    · exact hslots

/-- Nothing is dropped while the active chain goes on through the chain that there
was before. -/
theorem collect_load (hready : base.Ready start horizon)
    (hhorizon : cursor.toNat < horizon) (hslots : ∀ arm ∈ arms, arm.slots ≠ [])
    {active : BranchId} {behind : List BranchId}
    (hchain : rootsFrom (base.load value arms).branches.reverse active =
      behind ++ base.activeChain) :
    (((base.load value arms).moveTo cursor nextId).resume active).collect =
      ((base.load value arms).moveTo cursor nextId).resume active := by
  apply collect_eq_self
  intro branch hbranch
  change branch.id ∈ rootsFrom (base.load value arms).branches.reverse active ∨
    cursor < branch.stop ∨ branch.slots ≠ []
  rw [hchain]
  rcases mem_load.1 hbranch with ⟨held, hheld, rfl⟩ | harm
  · rcases hready.kept hhorizon hheld with hchained | hopen | hnonempty
    · exact Or.inl (List.mem_append_right _ hchained)
    · exact Or.inr (Or.inl hopen)
    · exact Or.inr (Or.inr (base.pushedSlots_ne_nil value hnonempty))
  · exact Or.inr (Or.inr (hslots branch harm))

theorem advance_eq_self {engine : Engine} {address : Address} {active : Branch}
    (hcollect : ({ engine with cursor := address } : Engine).collect =
      { engine with cursor := address })
    (hactive : engine.activeBranch? = some active) (hopen : address < active.stop) :
    engine.advance address = ({ engine with cursor := address }, .ok ()) := by
  have hclosed : active.closedAt address = false := by
    rw [Branch.closedAt, decide_eq_false_iff_not, not_le]
    exact hopen
  have hactive : ({ engine with cursor := address } : Engine).activeBranch? = some active :=
    hactive
  simp only [advance, hcollect, hactive, Option.any_some, hclosed]
  rfl

theorem advance_eq_switch {engine : Engine} {address : Address} {active ending : Branch}
    {root : BranchId}
    (hcollect : ({ engine with cursor := address } : Engine).collect =
      { engine with cursor := address })
    (hactive : engine.activeBranch? = some active)
    (hclosed : active.closedAt address = true)
    (hending : engine.branches.find? (fun branch => engine.activeChain.contains branch.id &&
      branch.stop == address) = some ending)
    (hroot : ending.root = some root) (hlive : (engine.branch? root).isSome = true) :
    engine.advance address =
      (({ engine with cursor := address, active := root } : Engine).collect, .ok ()) := by
  obtain ⟨live, hlive⟩ := Option.isSome_iff_exists.1 hlive
  have hactive : ({ engine with cursor := address } : Engine).activeBranch? = some active :=
    hactive
  have hending : ({ engine with cursor := address } : Engine).ending? address =
      some ending := by
    have hactiveChain : ({ engine with cursor := address } : Engine).activeChain =
        engine.activeChain := rfl
    simp only [ending?, hactiveChain, hending]
  have hlive : ({ engine with cursor := address } : Engine).branch? root = some live := hlive
  simp only [advance, hcollect, hactive, Option.any_some, hclosed, if_true, hending, hroot,
    Option.getD_some, switchTo, hlive]

/-- The outermost of the arms that end here is the first branch of the active chain
that does. -/
theorem find?_ending (hready : base.Ready start horizon) {last : Address}
    (hhorizon : last.toNat < horizon) {before after : List Branch} {arm : Branch}
    (hincreasing : (base.load value (before ++ arm :: after)).branches.Pairwise
      fun older newer => older.id < newer.id)
    (hroot : arm.root = some base.active) (hstop : arm.stop = last) {active : BranchId}
    (hrest : Tail last arm.id after active) :
    (base.load value (before ++ arm :: after)).branches.find? (fun branch =>
      (rootsFrom (base.load value (before ++ arm :: after)).branches.reverse
        active).contains branch.id && branch.stop == last) = some arm := by
  obtain ⟨own, hown, hid⟩ := hready.ordered.active_live
  have hlt := fun {branch} hbranch {arm} => @lt_arm base value _ hincreasing branch arm hbranch
  rw [branches_load] at hincreasing ⊢
  generalize hmapped : base.branches.map (fun branch =>
    ({ branch with slots := base.pushedSlots value branch } : Branch)) = older at *
  have hbase : rootsFrom older.reverse base.active = base.activeChain := by
    rw [← hmapped, ← List.map_reverse]
    exact rootsFrom_map _ base.branches.reverse base.active
  have hsplit : older ++ (before ++ arm :: after) = (older ++ (before ++ [arm])) ++ after := by
    simp
  have hparts := hincreasing
  rw [List.pairwise_append, List.pairwise_append, List.pairwise_cons] at hparts
  obtain ⟨_, ⟨_, ⟨hafter, _⟩, hbefore⟩, _⟩ := hparts
  obtain ⟨behind, hchain, hbehind⟩ := hrest.rootsFrom (older ++ (before ++ [arm]))
    (hsplit ▸ hincreasing) hafter
  rw [rootsFrom_arm hroot older (fun other hother => hid ▸ Nat.ne_of_gt
    (hlt hown (List.mem_append_left _ hother))), hbase, ← hsplit] at hchain
  rw [hchain, List.find?_append, List.find?_append]
  -- branches from before are in the chain only if they last beyond this address
  have holder : older.find? (fun branch => (behind ++ arm.id :: base.activeChain).contains
      branch.id && branch.stop == last) = none := by
    rw [List.find?_eq_none]
    intro branch hbranch hfound
    rw [← hmapped] at hbranch
    obtain ⟨held, hheld, rfl⟩ := List.mem_map.1 hbranch
    simp only [Bool.and_eq_true, List.contains_iff_mem, List.mem_append, List.mem_cons,
      beq_iff_eq] at hfound
    obtain ⟨hmem | heq | hmem, hends⟩ := hfound
    · obtain ⟨later, hlater, heq⟩ := hbehind _ hmem
      exact Nat.ne_of_gt (hlt hheld (List.mem_append_right _
        (List.mem_cons_of_mem _ hlater))) heq
    · exact Nat.ne_of_lt (hlt hheld (List.mem_append_right _ List.mem_cons_self)) heq
    · have hlasting := hready.lasting held hheld hmem
      rw [hends] at hlasting
      exact Nat.not_le_of_lt hhorizon hlasting
  -- earlier arms are not in the chain, which goes from this arm right to its root
  have hskip : before.find? (fun branch => (behind ++ arm.id :: base.activeChain).contains
      branch.id && branch.stop == last) = none := by
    rw [List.find?_eq_none]
    intro branch hbranch hfound
    simp only [Bool.and_eq_true, List.contains_iff_mem, List.mem_append, List.mem_cons,
      beq_iff_eq] at hfound
    have hearlier := hbefore branch hbranch arm List.mem_cons_self
    obtain ⟨hmem | heq | hmem, _⟩ := hfound
    · obtain ⟨later, hlater, heq⟩ := hbehind _ hmem
      exact Nat.ne_of_gt (Nat.lt_trans hearlier (hafter later hlater)) heq
    · exact Nat.ne_of_lt hearlier heq
    · have hle := hready.ordered.le_active_of_mem_activeChain hmem
      rw [← hid] at hle
      exact Nat.not_le_of_lt (hlt hown (List.mem_append_left _ hbranch)) hle
  rw [holder, hskip]
  simp [hstop]

/-- Where code that loads a value ends, the walk goes on with the branch on which it
started. -/
theorem advance_load (hready : base.Ready start horizon) {last : Address}
    (hhorizon : last.toNat < horizon) (harms : Arms base.active values last.toNat arms)
    {active : BranchId} (htail : Tail last base.active arms active)
    (hordered : (((base.load value arms).moveTo cursor nextId).resume active).Ordered) :
    (((base.load value arms).moveTo cursor nextId).resume active).advance last =
      ((base.load value arms).moveTo last nextId, .ok ()) := by
  obtain ⟨own, hown, hid⟩ := hready.ordered.active_live
  have hincreasing : (base.load value arms).branches.Pairwise
      fun older newer => older.id < newer.id := hordered.increasing
  have hloaded : ({ own with slots := base.pushedSlots value own } : Branch) ∈
      (base.load value arms).branches := mem_load.2 (Or.inl ⟨own, hown, rfl⟩)
  have hcollect : ∀ {other : BranchId}, Tail last base.active arms other →
      (((base.load value arms).moveTo last nextId).resume other).collect =
        ((base.load value arms).moveTo last nextId).resume other := by
    intro other hother
    have hnewer : ∀ arm ∈ arms, base.active < arm.id := fun arm harm =>
      hid ▸ lt_arm hincreasing hown harm
    rw [branches_load] at hincreasing
    obtain ⟨behind, hchain, _⟩ := hother.rootsFrom _ hincreasing hnewer
    rw [← branches_load, ← List.map_reverse, rootsFrom_map] at hchain
    refine collect_load hready hhorizon (fun arm harm => ?_) hchain
    obtain ⟨held, hslots⟩ := harms.slots_of_mem harm
    rw [hslots]
    exact List.cons_ne_nil _ _
  cases htail with
  | root =>
      have hlasting := hready.lasting own hown (hid ▸ hready.ordered.active_mem_activeChain)
      exact advance_eq_self (hcollect (.root _ _))
        (hordered.activeBranch?_eq_some_iff.2 ⟨hloaded, hid⟩)
        (Address.lt_iff_toNat_lt.2 (Nat.lt_of_lt_of_le hhorizon hlasting))
  | @arm _ _ before arm after harmRoot harmStop hrest =>
      obtain ⟨live, hlive, hliveId, hliveStop⟩ : ∃ live ∈ before ++ arm :: after,
          live.id = active ∧ live.stop = last := by
        rcases hrest.exists_arm with heq | ⟨live, hlive, hends⟩
        · exact ⟨arm, List.mem_append_right _ List.mem_cons_self, heq.symm, harmStop⟩
        · exact ⟨live, List.mem_append_right _ (List.mem_cons_of_mem _ hlive), hends⟩
      have hswitch := @advance_eq_switch
        (((base.load value (before ++ arm :: after)).moveTo cursor nextId).resume active)
        last live arm base.active (hcollect (.arm before harmRoot harmStop hrest))
        (hordered.activeBranch?_eq_some_iff.2 ⟨mem_load.2 (Or.inr hlive), hliveId⟩)
        (closedAt_iff.2 (Nat.le_of_eq (by rw [hliveStop])))
        (find?_ending hready hhorizon hincreasing harmRoot harmStop hrest) harmRoot
        (List.find?_isSome.2 ⟨_, hloaded, beq_iff_eq.2 hid⟩)
      rw [hswitch]
      exact congrArg (·, Except.ok ()) (hcollect (.root base.active _))

/-- After a value has been loaded, the engine is ready for the code behind. -/
theorem Ready.load (hready : base.Ready start horizon) {last : Address}
    (hstart : start ≤ last.toNat) (harms : Arms base.active values last.toNat arms)
    (hordered : ((base.load value arms).moveTo last nextId).Ordered)
    (hsettled : ((base.load value arms).moveTo last nextId).Settled) :
    ((base.load value arms).moveTo last nextId).Ready last.toNat horizon where
  cursor := rfl
  parted := by
    intro branch hbranch
    rcases mem_load.1 hbranch with ⟨held, hheld, rfl⟩ | harm
    · rcases hready.parted held hheld with hended | hopen
      · exact Or.inl (Nat.le_trans hended hstart)
      · exact Or.inr hopen
    · exact Or.inl (harms.ended branch harm)
  lasting := by
    obtain ⟨own, hown, hid⟩ := hready.ordered.active_live
    intro branch hbranch hchain
    have hactive := hordered.le_active_of_mem_activeChain hchain
    change branch.id ≤ base.active at hactive
    rcases mem_load.1 hbranch with ⟨held, hheld, rfl⟩ | harm
    · apply hready.lasting held hheld
      change held.id ∈ rootsFrom (base.load value arms).branches.reverse base.active at hchain
      rw [branches_load, List.reverse_append, rootsFrom_append, ← List.map_reverse,
        rootsFrom_map] at hchain
      · exact hchain
      · intro arm harm
        rw [← hid]
        exact Nat.ne_of_gt (lt_arm hordered.increasing hown (List.mem_reverse.1 harm))
    · rw [← hid] at hactive
      exact absurd (lt_arm hordered.increasing hown harm) (Nat.not_lt_of_le hactive)
  ordered := hordered
  settled := hsettled

end Load

/-! ## Code without a value, and the second arm of a choice -/

section Move

variable {base : Engine} {start horizon : Nat} {cursor stop : Address}

theorem advance_ready (hready : base.Ready start horizon)
    (hhorizon : cursor.toNat < horizon) :
    base.advance cursor = (base.moveTo cursor base.nextId, .ok ()) := by
  obtain ⟨own, hown, hid⟩ := hready.ordered.active_live
  have hlasting := hready.lasting own hown (hid ▸ hready.ordered.active_mem_activeChain)
  refine advance_eq_self (collect_eq_self fun branch hbranch => ?_)
    (hready.ordered.activeBranch?_eq_some_iff.2 ⟨hown, hid⟩)
    (Address.lt_iff_toNat_lt.2 (Nat.lt_of_lt_of_le hhorizon hlasting))
  exact hready.kept hhorizon hbranch

theorem ready_withMain (id : BranchId) : (withMain id).Ready 0 Address.last.toNat where
  cursor := rfl
  parted := by
    intro branch hbranch
    rw [List.mem_singleton.1 hbranch]
    exact Or.inr (Nat.le_refl _)
  lasting := by
    intro branch hbranch _
    obtain rfl := List.mem_singleton.1 hbranch
    exact Nat.le_refl _
  ordered := ordered_withMain id
  settled := settled_withMain id

theorem Ready.moveTo (hready : base.Ready start horizon) (hstart : start ≤ cursor.toNat)
    {nextId : BranchId} (hordered : (base.moveTo cursor nextId).Ordered)
    (hsettled : (base.moveTo cursor nextId).Settled) :
    (base.moveTo cursor nextId).Ready cursor.toNat horizon where
  cursor := rfl
  parted := by
    intro branch hbranch
    rcases hready.parted branch hbranch with hended | hopen
    · exact Or.inl (Nat.le_trans hended hstart)
    · exact Or.inr hopen
  lasting := hready.lasting
  ordered := hordered
  settled := hsettled

theorem isMerging_moveTo (hready : base.Ready start horizon) (hstart : start ≤ cursor.toNat)
    (hhorizon : cursor.toNat < horizon) (nextId : BranchId) {branch : Branch}
    (hbranch : branch ∈ base.branches) :
    (base.moveTo cursor nextId).isMerging branch = base.isMerging branch :=
  @isMerging_congr Branch.slots (base.moveTo cursor nextId) base rfl rfl (List.map_id' _).symm
    (fun _ hother => hready.closedAt_eq hstart hhorizon hother) branch hbranch branch.slots

/-- A value without alternatives is loaded by a push. -/
theorem push_moveTo (hready : base.Ready start horizon) (hstart : start ≤ cursor.toNat)
    (hhorizon : cursor.toNat < horizon) (nextId : BranchId) (value : Address) :
    (base.moveTo cursor nextId).push value = (base.load value []).moveTo cursor nextId := by
  have hsame : ∀ branch ∈ base.branches,
      (base.moveTo cursor nextId).pushedSlots value branch = base.pushedSlots value branch := by
    intro branch hbranch
    rw [pushedSlots, pushedSlots, isMerging_moveTo hready hstart hhorizon nextId hbranch]
    rfl
  calc
    (base.moveTo cursor nextId).push value =
        (base.moveTo cursor nextId).mapSlots ((base.moveTo cursor nextId).pushedSlots value) :=
      push_eq_mapSlots _ _
    _ = (base.moveTo cursor nextId).mapSlots (base.pushedSlots value) := mapSlots_congr hsame
    _ = (base.load value []).moveTo cursor nextId := by
      rw [load, push_eq_mapSlots, List.append_nil]
      rfl

theorem load_moveTo (hready : base.Ready start horizon) (hstart : start ≤ cursor.toNat)
    (hhorizon : cursor.toNat < horizon) (nextId : BranchId) (value : Address)
    (arms : List Branch) :
    (base.moveTo cursor nextId).load value arms =
      (base.load value arms).moveTo cursor nextId := by
  rw [load, push_moveTo hready hstart hhorizon, load]
  simp only [moveTo, load, List.append_nil]

theorem advance_fork (hready : base.Ready start horizon)
    (hcursor : cursor < stop) (hhorizon : stop.toNat ≤ horizon) :
    (base.fork stop).advance cursor =
      ((base.fork stop).moveTo cursor (base.fork stop).nextId, .ok ()) := by
  have hlt : cursor.toNat < stop.toNat := Address.lt_iff_toNat_lt.1 hcursor
  have hnew : ({ id := base.nextId, stop := stop, root := some base.active } : Branch) ∈
      (base.fork stop).branches := List.mem_append_right _ (List.mem_singleton_self _)
  refine advance_eq_self (collect_eq_self fun branch hbranch => ?_)
    ((hready.ordered.fork stop).activeBranch?_eq_some_iff.2 ⟨hnew, rfl⟩) hcursor
  rcases List.mem_append.1 hbranch with hold | hlast
  · rcases hready.kept (Nat.lt_of_lt_of_le hlt hhorizon) hold with hchain | hkept
    · left
      change branch.id ∈ (base.fork stop).activeChain
      rw [activeChain_fork]
      exact List.mem_cons_of_mem _ hchain
    · exact Or.inr hkept
  · rw [List.mem_singleton.1 hlast]
    exact Or.inr (Or.inl hcursor)

theorem Ready.fork (hready : base.Ready start horizon) (hstart : start ≤ cursor.toNat)
    (hhorizon : stop.toNat ≤ horizon) {nextId : BranchId}
    (hordered : ((base.fork stop).moveTo cursor nextId).Ordered)
    (hsettled : ((base.fork stop).moveTo cursor nextId).Settled) :
    ((base.fork stop).moveTo cursor nextId).Ready cursor.toNat stop.toNat where
  cursor := rfl
  parted := by
    intro branch hbranch
    rcases List.mem_append.1 hbranch with hold | hlast
    · rcases hready.parted branch hold with hended | hopen
      · exact Or.inl (Nat.le_trans hended hstart)
      · exact Or.inr (Nat.le_trans hhorizon hopen)
    · rw [List.mem_singleton.1 hlast]
      exact Or.inr (Nat.le_refl _)
  lasting := by
    intro branch hbranch hchain
    change branch.id ∈ (base.fork stop).activeChain at hchain
    rw [activeChain_fork] at hchain
    rcases List.mem_append.1 hbranch with hold | hlast
    · have hne := Nat.ne_of_lt (hready.ordered.bounded branch hold)
      exact Nat.le_trans hhorizon
        (hready.lasting branch hold ((List.mem_cons.1 hchain).resolve_left hne))
    · obtain rfl := List.mem_singleton.1 hlast
      exact Nat.le_refl _
  ordered := hordered
  settled := hsettled

/-- The branch of a second arm that has computed its value. -/
def armBranch (base : Engine) (stop value : Address) : Branch where
  id := base.nextId
  stop := stop
  root := some base.active
  slots := [.value value]

/-- The value of the second arm is all that its branch holds. -/
theorem branches_load_fork (hbase : base.Ordered) {nextId : BranchId}
    (hordered : ((base.fork stop).moveTo cursor nextId).Ordered) (value : Address)
    (arms : List Branch) :
    (((base.fork stop).moveTo cursor nextId).load value arms).branches =
      base.branches ++ base.armBranch stop value :: arms := by
  have hold : ∀ branch ∈ base.branches,
      ((base.fork stop).moveTo cursor nextId).pushedSlots value branch = branch.slots := by
    intro branch hbranch
    have hlt := hbase.bounded branch hbranch
    have hactive : branch.id ≠ ((base.fork stop).moveTo cursor nextId).active :=
      Nat.ne_of_lt hlt
    have hmerging : ¬ ((base.fork stop).moveTo cursor nextId).isMerging branch := by
      intro hmerging
      exact Nat.lt_asymm hlt (hordered.active_lt_of_isMerging
        (List.mem_append_left _ hbranch) hmerging)
    rw [pushedSlots, if_neg hactive, if_neg hmerging]
  rw [branches_load]
  change (base.branches ++ [({ id := base.nextId, stop := stop, root := some base.active } :
    Branch)]).map _ ++ arms = _
  rw [List.map_append, List.map_singleton, List.append_assoc, List.singleton_append]
  have hsame : base.branches.map (fun branch =>
      ({ branch with
        slots := ((base.fork stop).moveTo cursor nextId).pushedSlots value branch } :
        Branch)) = base.branches := by
    conv_rhs => rw [← List.map_id base.branches]
    apply List.map_congr_left
    intro branch hbranch
    simp only [hold branch hbranch, id_eq]
  rw [hsame, pushedSlots]
  simp only [moveTo, active_fork, if_true]
  rfl

/-- Loading the value of a second arm adds its branch to the arms of the first value. -/
theorem load_fork {value other : Address} {arms more : List Branch} {id nextId : BranchId}
    {last : Address} (hbase : ((base.load value arms).moveTo cursor id).Ordered)
    (hordered : ((((base.load value arms).moveTo cursor id).fork stop).moveTo last
      nextId).Ordered) :
    ((((base.load value arms).moveTo cursor id).fork stop).moveTo last nextId).load other more =
      ((base.load value (arms ++ ((base.load value arms).moveTo cursor id).armBranch stop other ::
        more)).moveTo last nextId).resume id := by
  have hload : ∀ engine : Engine, engine.load other more =
      { engine with branches := (engine.load other more).branches } := fun _ => rfl
  rw [hload, branches_load_fork hbase hordered]
  simp only [moveTo, resume, load, fork, List.append_assoc]

end Move

end StackLift.Engine
