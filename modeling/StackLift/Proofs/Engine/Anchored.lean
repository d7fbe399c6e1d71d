import StackLift.Proofs.Engine.Load
import StackLift.Proofs.Engine.Reach

/-!
# The main branch and the ways to it

As long as the walk keeps away from the reserved address, the main branch never ends
and is never dropped.  Every other branch has a root, and the number of a root is
smaller, be the root live or gone.  So whoever goes from a branch to its root, and on
from there, comes to an end, and the one pass that the engine makes over its branches
finds the same.
-/

namespace StackLift.Engine

/-- The main branch comes first and lasts to the end, which the walk has not reached. -/
structure Anchored (engine : Engine) : Prop where
  main_first : ∃ main, engine.branches.head? = some main ∧ main.id = engine.main ∧
    main.stop = .last
  cursor_lt : engine.cursor < .last

/-- The walk keeps away from the reserved address. -/
def belowLast : Engine → Operation → Prop
  | _, .advance address => address < .last
  | _, _ => True

/-! ## The main branch stays where it is -/

theorem anchored_withMain (id : BranchId) : (withMain id).Anchored :=
  ⟨⟨_, rfl, rfl, rfl⟩, show Address.zero < Address.last by decide⟩

namespace Anchored

variable {engine : Engine}

theorem setCursor (hanchored : engine.Anchored) {address : Address} (haddress : address < .last) :
    ({ engine with cursor := address } : Engine).Anchored :=
  ⟨hanchored.main_first, haddress⟩

theorem setActive (hanchored : engine.Anchored) (id : BranchId) :
    ({ engine with active := id } : Engine).Anchored :=
  ⟨hanchored.main_first, hanchored.cursor_lt⟩

theorem collect (hanchored : engine.Anchored) : engine.collect.Anchored := by
  obtain ⟨main, hfirst, hmain, hstop⟩ := hanchored.main_first
  obtain ⟨rest, hbranches⟩ := List.head?_eq_some_iff.1 hfirst
  have hkept : (engine.activeChain.contains main.id ||
      !(main.closedAt engine.cursor && main.isEmpty)) = true :=
    kept_iff.2 (Or.inr (Or.inl (hstop ▸ hanchored.cursor_lt)))
  refine ⟨⟨main, ?_, hmain, hstop⟩, hanchored.cursor_lt⟩
  simp only [Engine.collect, hbranches, List.filter_cons, if_pos hkept, List.head?_cons]

theorem mapSlots (hanchored : engine.Anchored) (slots : Branch → List Slot) :
    (engine.mapSlots slots).Anchored := by
  obtain ⟨main, hfirst, hmain, hstop⟩ := hanchored.main_first
  refine ⟨⟨{ main with slots := slots main }, ?_, hmain, hstop⟩, hanchored.cursor_lt⟩
  rw [Engine.mapSlots, List.head?_map, hfirst, Option.map_some]

theorem advance (hanchored : engine.Anchored) {address : Address} (haddress : address < .last) :
    (engine.advance address).1.Anchored :=
  advance_induction engine address (hanchored.setCursor haddress).collect
    fun id _ => ((hanchored.setCursor haddress).collect.setActive id).collect

theorem push (hanchored : engine.Anchored) (address : Address) :
    (engine.push address).Anchored := by
  rw [push_eq_mapSlots]
  exact hanchored.mapSlots _

theorem pop (hanchored : engine.Anchored) (listing : Listing) :
    (engine.pop listing).1.Anchored := by
  have hdropped : engine.dropTop.Anchored := by
    rw [dropTop_eq_mapSlots]
    exact hanchored.mapSlots _
  exact pop_induction engine listing hanchored (fun _ => hdropped) hdropped.collect

theorem fork (hanchored : engine.Anchored) (stop : Address) : (engine.fork stop).Anchored := by
  obtain ⟨main, hfirst, hmain, hstop⟩ := hanchored.main_first
  refine ⟨⟨main, ?_, hmain, hstop⟩, hanchored.cursor_lt⟩
  rw [Engine.fork, List.head?_append, hfirst, Option.some_or]

theorem forkAt (hanchored : engine.Anchored) (listing : Listing) (address : Address) :
    (engine.forkAt listing address).Anchored := by
  rw [Engine.forkAt]
  split
  · exact hanchored.fork _
  · exact hanchored

theorem perform (hanchored : engine.Anchored) (listing : Listing) {operation : Operation}
    (hallowed : belowLast engine operation) :
    (engine.perform listing operation).1.Anchored := by
  cases operation with
  | advance address => exact hanchored.advance hallowed
  | push address => exact hanchored.push address
  | pop => exact hanchored.pop listing
  | fork stop => exact hanchored.fork stop
  | forkAt address => exact hanchored.forkAt listing address
  | reset => exact anchored_withMain _

end Anchored

theorem Reachable.anchored {engine : Engine} (hreachable : Reachable belowLast engine) :
    engine.Anchored := by
  induction hreachable with
  | start => exact anchored_withMain 0
  | step listing operation _ hallowed ih => exact ih.perform listing hallowed

/-! ## Going from root to root -/

/-- The live branches met by going from a branch to its root, and on from there, until a
branch has no root or its root is gone. -/
inductive Climbs (engine : Engine) : Option BranchId → List BranchId → Prop where
  | rootless : Climbs engine none []
  | gone {id : BranchId} (hgone : engine.branch? id = none) : Climbs engine (some id) []
  | live {id : BranchId} {branch : Branch} {above : List BranchId}
    (hlive : engine.branch? id = some branch) (habove : Climbs engine branch.root above) :
    Climbs engine (some id) (id :: above)

/-- Whether going from root to root comes to the active branch, if a root is left only
when it is live, has ended and is not the main branch. -/
inductive Returns (engine : Engine) : BranchId → Bool → Prop where
  | arrives : Returns engine engine.active true
  | leaves {id : BranchId} {branch : Branch} {result : Bool} (hne : id ≠ engine.active)
    (hlive : engine.branch? id = some branch) (hmain : id ≠ engine.main)
    (hended : branch.closedAt engine.cursor = true)
    (hrest : Returns engine (branch.root.getD engine.main) result) : Returns engine id result
  | stays {id : BranchId} (hne : id ≠ engine.active)
    (hstays : ∀ branch, engine.branch? id = some branch →
      id = engine.main ∨ branch.closedAt engine.cursor = false) : Returns engine id false

namespace Ordered

variable {engine : Engine}

/-- A live branch in the pass over the branches, newest first: neither it nor its root
comes before it. -/
theorem split_live (hordered : engine.Ordered) {id : BranchId} {branch : Branch}
    (hlive : engine.branch? id = some branch) :
    ∃ newer older, engine.branches.reverse = newer ++ branch :: older ∧
      (∀ other ∈ newer, other.id ≠ id) ∧
      ∀ root, branch.root = some root → ∀ other ∈ newer ++ [branch], other.id ≠ root := by
  have hmem := mem_of_branch?_eq_some hlive
  obtain ⟨newer, older, hsplit⟩ := List.append_of_mem (List.mem_reverse.2 hmem)
  have hdecreasing := List.pairwise_reverse.2 hordered.increasing
  rw [hsplit, List.pairwise_append] at hdecreasing
  have hnewer : ∀ other ∈ newer, branch.id < other.id :=
    fun other hother => hdecreasing.2.2 other hother branch List.mem_cons_self
  refine ⟨newer, older, hsplit, ?_, ?_⟩
  · rw [← id_of_branch?_eq_some hlive]
    exact fun other hother => Nat.ne_of_gt (hnewer other hother)
  · intro root hroot other hother
    have hlt := hordered.root_lt hmem hroot
    rcases List.mem_append.1 hother with hother | hother
    · exact Nat.ne_of_gt (Nat.lt_trans hlt (hnewer other hother))
    · rw [List.mem_singleton.1 hother]
      exact Nat.ne_of_gt hlt

theorem id_ne_of_gone {id : BranchId} (hgone : engine.branch? id = none) :
    ∀ other ∈ engine.branches.reverse, other.id ≠ id := by
  intro other hother
  rw [branch?, List.find?_eq_none] at hgone
  simpa using hgone other (List.mem_reverse.1 hother)

theorem rootsFrom_of_live (hordered : engine.Ordered) {id : BranchId} {branch : Branch}
    (hlive : engine.branch? id = some branch) {root : BranchId}
    (hroot : branch.root = some root) :
    rootsFrom engine.branches.reverse id = id :: rootsFrom engine.branches.reverse root := by
  obtain ⟨newer, older, hsplit, hnewer, hbefore⟩ := hordered.split_live hlive
  have hrest : rootsFrom engine.branches.reverse root = rootsFrom older root := by
    rw [hsplit, List.append_cons]
    exact rootsFrom_append (hbefore root hroot)
  rw [hrest, hsplit, rootsFrom_append hnewer, rootsFrom,
    if_pos (beq_iff_eq.2 (id_of_branch?_eq_some hlive)), hroot]

theorem rootsFrom_of_rootless (hordered : engine.Ordered) {id : BranchId} {branch : Branch}
    (hlive : engine.branch? id = some branch) (hroot : branch.root = none) :
    rootsFrom engine.branches.reverse id = [id] := by
  obtain ⟨newer, older, hsplit, hnewer, _⟩ := hordered.split_live hlive
  rw [hsplit, rootsFrom_append hnewer, rootsFrom,
    if_pos (beq_iff_eq.2 (id_of_branch?_eq_some hlive)), hroot]

theorem rootsFrom_of_gone {id : BranchId} (hgone : engine.branch? id = none) :
    rootsFrom engine.branches.reverse id = [] := by
  have hpass : rootsFrom (engine.branches.reverse ++ []) id = [] :=
    rootsFrom_append (id_ne_of_gone hgone)
  rwa [List.append_nil] at hpass

/-- The way from any number over live roots ends, and one pass finds it. -/
theorem climbs (hordered : engine.Ordered) (id : BranchId) :
    engine.Climbs (some id) (rootsFrom engine.branches.reverse id) := by
  induction id using Nat.strongRecOn with
  | ind id ih =>
      cases hbranch : engine.branch? id with
      | none =>
          rw [rootsFrom_of_gone hbranch]
          exact .gone hbranch
      | some branch =>
          cases hroot : branch.root with
          | none =>
              rw [hordered.rootsFrom_of_rootless hbranch hroot]
              exact .live hbranch (hroot ▸ .rootless)
          | some root =>
              have hlt := hordered.root_lt (mem_of_branch?_eq_some hbranch) hroot
              rw [id_of_branch?_eq_some hbranch] at hlt
              rw [hordered.rootsFrom_of_live hbranch hroot]
              exact .live hbranch (hroot ▸ ih root hlt)

theorem leadsToActive_of_live (hordered : engine.Ordered) {id : BranchId} {branch : Branch}
    (hlive : engine.branch? id = some branch) (hne : id ≠ engine.active) (hmain : id ≠ engine.main)
    (hended : branch.closedAt engine.cursor = true) :
    engine.leadsToActive engine.branches.reverse id =
      engine.leadsToActive engine.branches.reverse (branch.root.getD engine.main) := by
  obtain ⟨newer, older, hsplit, hnewer, hbefore⟩ := hordered.split_live hlive
  have hid := id_of_branch?_eq_some hlive
  obtain ⟨root, hroot, _, _⟩ := hordered.rooted branch (mem_of_branch?_eq_some hlive)
    (hid ▸ hmain)
  have hrest : engine.leadsToActive engine.branches.reverse root =
      engine.leadsToActive older root := by
    rw [hsplit, List.append_cons]
    exact leadsToActive_append engine (hbefore root hroot)
  rw [hroot, Option.getD_some, hrest, hsplit, leadsToActive_append engine hnewer,
    leadsToActive, if_neg (by simpa using hne), if_pos (beq_iff_eq.2 hid), hroot]
  simp [hmain, hended]

theorem leadsToActive_of_stays (hordered : engine.Ordered) {id : BranchId}
    (hne : id ≠ engine.active) (hstays : ∀ branch, engine.branch? id = some branch →
      id = engine.main ∨ branch.closedAt engine.cursor = false) :
    engine.leadsToActive engine.branches.reverse id = false := by
  cases hbranch : engine.branch? id with
  | none =>
      have hpass : engine.leadsToActive (engine.branches.reverse ++ []) id =
          (id == engine.active) := leadsToActive_append engine (id_ne_of_gone hbranch)
      rw [List.append_nil] at hpass
      rw [hpass]
      simpa using hne
  | some branch =>
      obtain ⟨newer, older, hsplit, hnewer, _⟩ := hordered.split_live hbranch
      rw [hsplit, leadsToActive_append engine hnewer, leadsToActive,
        if_neg (by simpa using hne), if_pos (beq_iff_eq.2 (id_of_branch?_eq_some hbranch))]
      rcases hstays branch hbranch with hmain | hopen
      · simp [hmain]
      · simp [hopen]

/-- The way from any root through ended branches ends, and one pass tells whether it
leads to the active branch. -/
theorem returns (hordered : engine.Ordered) (id : BranchId) :
    engine.Returns id (engine.leadsToActive engine.branches.reverse id) := by
  induction id using Nat.strongRecOn with
  | ind id ih =>
      by_cases hactive : id = engine.active
      · rw [hactive, leadsToActive_active]
        exact .arrives
      by_cases hleaves : ∃ branch, engine.branch? id = some branch ∧ id ≠ engine.main ∧
          branch.closedAt engine.cursor = true
      · obtain ⟨branch, hlive, hmain, hended⟩ := hleaves
        have hid := id_of_branch?_eq_some hlive
        obtain ⟨root, hroot, _, hlt⟩ := hordered.rooted branch (mem_of_branch?_eq_some hlive)
          (hid ▸ hmain)
        rw [hordered.leadsToActive_of_live hlive hactive hmain hended]
        refine .leaves hactive hlive hmain hended (ih _ ?_)
        rw [hroot, Option.getD_some]
        exact hid ▸ hlt
      · have hstays : ∀ branch, engine.branch? id = some branch →
            id = engine.main ∨ branch.closedAt engine.cursor = false := by
          intro branch hlive
          by_contra hboth
          rw [not_or, Bool.not_eq_false] at hboth
          exact hleaves ⟨branch, hlive, hboth⟩
        rw [hordered.leadsToActive_of_stays hactive hstays]
        exact .stays hactive hstays

end Ordered

/-- Numbers rise along the branches and fall along the way to their roots, down to the
main branch, which comes first and is the only one without a root.  The active branch is
live, and both ways over roots come to an end. -/
theorem lineage_of_reachable (engine : Engine) (hreachable : Reachable belowLast engine) :
    engine.branches.Pairwise (fun older newer => older.id < newer.id) ∧
      (∀ branch ∈ engine.branches, branch.id < engine.nextId) ∧
      (∃ main rest, engine.branches = main :: rest ∧ main.id = engine.main ∧
        main.stop = .last ∧ main.root = none ∧
        ∀ branch ∈ rest, ∃ root, branch.root = some root ∧
          engine.main ≤ root ∧ root < branch.id) ∧
      (∃ active, engine.activeBranch? = some active ∧ active.id = engine.active) ∧
      engine.Climbs (some engine.active) engine.activeChain ∧
      ∀ branch ∈ engine.branches,
        engine.Returns (branch.root.getD engine.main)
          (engine.leadsToActive engine.branches.reverse (branch.root.getD engine.main)) := by
  have hordered := hreachable.ordered
  obtain ⟨main, hfirst, hmain, hstop⟩ := hreachable.anchored.main_first
  obtain ⟨rest, hbranches⟩ := List.head?_eq_some_iff.1 hfirst
  obtain ⟨_, active, _, _, hactive, hlookup, _⟩ := hordered.split_active
  refine ⟨hordered.increasing, hordered.bounded, ⟨main, rest, hbranches, hmain, hstop, ?_, ?_⟩,
    ⟨active, hlookup, hactive⟩, hordered.climbs engine.active, fun branch _ => hordered.returns _⟩
  · apply hordered.main_rootless main _ hmain
    rw [hbranches]
    exact List.mem_cons_self
  · intro branch hbranch
    have hincreasing := hordered.increasing
    rw [hbranches, List.pairwise_cons] at hincreasing
    have hnewer := hincreasing.1 branch hbranch
    apply hordered.rooted branch
    · rw [hbranches]
      exact List.mem_cons_of_mem _ hbranch
    · exact hmain ▸ Nat.ne_of_gt hnewer

/-- A value on an arm within another arm that ends at the same address. -/
def sharedEnd : Engine :=
  ((new.fork ⟨3⟩).fork ⟨3⟩).push ⟨2⟩

/-- Behind their end, the outer arm is dropped, and the inner one keeps its value and the
number of its root. -/
theorem lineage_of_reachable_sharedEnd :
    (sharedEnd.advance ⟨3⟩).1.branches =
        [⟨0, .last, none, []⟩, ⟨2, ⟨3⟩, some 1, [.value ⟨2⟩]⟩] ∧
      (sharedEnd.advance ⟨3⟩).1.Climbs (some 0) [0] ∧
      (sharedEnd.advance ⟨3⟩).1.Returns 1 false := by
  have hreachable : Reachable belowLast (sharedEnd.advance ⟨3⟩).1 :=
    .step .empty (.advance ⟨3⟩) (.step .empty (.push ⟨2⟩) (.step .empty (.fork ⟨3⟩)
      (.step .empty (.fork ⟨3⟩) .start trivial) trivial) trivial)
      (show (⟨3⟩ : Address) < .last by decide)
  obtain ⟨_, _, _, _, hclimbs, hreturns⟩ := lineage_of_reachable _ hreachable
  exact ⟨by decide, hclimbs, hreturns ⟨2, ⟨3⟩, some 1, [.value ⟨2⟩]⟩ (by decide)⟩

end StackLift.Engine
