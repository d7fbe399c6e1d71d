import Mathlib.Data.List.Chain
import Mathlib.Data.List.Find
import StackLift.Proofs.Engine.Anchored
import StackLift.Proofs.Engine.Resume

/-!
# Properly nested arms

A walk that goes forward, passes over no end of a branch, and forks only arms that end
within the branch they are forked from keeps its open branches nested: each is forked
from the one before and lasts no longer.  Several of them may end at one address.  The
walk then goes on with the innermost one that is still open, and never fails.
-/

namespace StackLift.Engine

/-- The branches that have not ended, outermost first. -/
def opened (engine : Engine) : List Branch :=
  engine.branches.filter fun branch => engine.cursor < branch.stop

/-- Arms end within the active branch, and the walk goes forward from one end of a
branch to the next. -/
def nestedUse (engine : Engine) : Operation → Prop
  | .advance address => engine.cursor ≤ address ∧ address < .last ∧
      ∀ branch ∈ engine.branches, ¬ (engine.cursor < branch.stop ∧ branch.stop < address)
  | .push _ => True
  | .pop => True
  | .fork stop => engine.cursor < stop ∧ ∀ active ∈ engine.activeBranch?, stop ≤ active.stop
  | .forkAt _ => False
  | .reset => False

/-- Every open branch is forked from the one before, lasts no longer, and has no holes.
The innermost one is active. -/
structure Nested (engine : Engine) : Prop where
  linked : engine.opened.IsChain fun outer inner => inner.root = some outer.id
  innermost : engine.opened.getLast?.map Branch.id = some engine.active
  narrowing : engine.opened.Pairwise fun outer inner => inner.stop ≤ outer.stop
  solid : ∀ branch ∈ engine.opened, Slot.hole ∉ branch.slots

/-- What any use that keeps away from the reserved address leaves intact. -/
structure Regular (engine : Engine) : Prop where
  ordered : engine.Ordered
  settled : engine.Settled
  anchored : engine.Anchored

/-! ## The open branches after a change -/

section Opened

variable {engine : Engine}

theorem mem_opened {branch : Branch} :
    branch ∈ engine.opened ↔ branch ∈ engine.branches ∧ engine.cursor < branch.stop := by
  rw [opened, List.mem_filter, decide_eq_true_iff]

theorem opened_collect : engine.collect.opened = engine.opened := by
  change engine.collect.branches.filter (fun branch => engine.cursor < branch.stop) = _
  rw [collect, opened, List.filter_filter]
  apply List.filter_congr
  intro branch _
  by_cases hopen : engine.cursor < branch.stop
  · rw [kept_iff.2 (Or.inr (Or.inl hopen)), Bool.and_true]
  · rw [decide_eq_false hopen, Bool.false_and]

theorem opened_move {address : Address} (hforward : engine.cursor ≤ address)
    (active : BranchId) :
    ({ engine with cursor := address, active := active } : Engine).opened =
      engine.opened.filter fun branch => address < branch.stop := by
  simp only [opened, List.filter_filter]
  apply List.filter_congr
  intro branch _
  by_cases hlasts : address < branch.stop
  · rw [decide_eq_true hlasts, decide_eq_true (lt_of_le_of_lt hforward hlasts), Bool.and_self]
  · rw [decide_eq_false hlasts, Bool.false_and]

theorem opened_mapSlots (slots : Branch → List Slot) :
    (engine.mapSlots slots).opened =
      engine.opened.map fun branch => { branch with slots := slots branch } :=
  List.filter_map

theorem opened_fork {stop : Address} (hopen : engine.cursor < stop) :
    (engine.fork stop).opened =
      engine.opened ++ [{ id := engine.nextId, stop, root := some engine.active }] := by
  rw [opened, fork, List.filter_append]
  simp only [List.filter_singleton, decide_eq_true hopen]
  rfl

theorem Anchored.head?_opened (hanchored : engine.Anchored) :
    ∃ main, engine.opened.head? = some main ∧ main.id = engine.main ∧ main.stop = .last := by
  obtain ⟨main, hfirst, hmain, hstop⟩ := hanchored.main_first
  obtain ⟨rest, hbranches⟩ := List.head?_eq_some_iff.1 hfirst
  have hopen : engine.cursor < main.stop := hstop ▸ hanchored.cursor_lt
  refine ⟨main, ?_, hmain, hstop⟩
  rw [opened, hbranches, List.filter_cons, if_pos (decide_eq_true hopen), List.head?_cons]

end Opened

/-! ## The active chain is the open branches -/

theorem rootsFrom_eq_map_id {isOpen : Branch → Bool} {branches outer : List Branch}
    {inner : Branch} (hdistinct : (branches.map Branch.id).Nodup)
    (hopen : branches.filter isOpen = inner :: outer)
    (hlinked : (inner :: outer).IsChain fun inner outer => inner.root = some outer.id)
    (hrootless : ∀ last ∈ (inner :: outer).getLast?, last.root = none) :
    rootsFrom branches inner.id = (inner :: outer).map Branch.id := by
  induction branches generalizing inner outer with
  | nil => cases hopen
  | cons branch older ih =>
      rw [List.map_cons, List.nodup_cons] at hdistinct
      by_cases hbranch : isOpen branch = true
      · rw [List.filter_cons_of_pos hbranch, List.cons.injEq] at hopen
        obtain ⟨rfl, holder⟩ := hopen
        rw [rootsFrom, if_pos (beq_self_eq_true _)]
        cases outer with
        | nil =>
            rw [hrootless branch rfl]
            rfl
        | cons next rest =>
            rw [List.isChain_cons_cons] at hlinked
            rw [List.getLast?_cons_cons] at hrootless
            rw [hlinked.1]
            simp only [List.map_cons, ih hdistinct.2 holder hlinked.2 hrootless]
      · rw [List.filter_cons_of_neg hbranch] at hopen
        have hinner : inner ∈ older :=
          List.mem_of_mem_filter (hopen ▸ List.mem_cons_self : inner ∈ older.filter isOpen)
        have hne : branch.id ≠ inner.id :=
          fun heq => hdistinct.1 (heq ▸ List.mem_map_of_mem hinner)
        rw [rootsFrom, if_neg (by simpa using hne)]
        exact ih hdistinct.2 hopen hlinked hrootless

namespace Nested

variable {engine : Engine}

/-- The active branch is the last of the open ones. -/
theorem exists_active (hnested : engine.Nested) (hregular : engine.Regular) :
    ∃ outer active, engine.opened = outer ++ [active] ∧ active.id = engine.active ∧
      engine.activeBranch? = some active := by
  obtain ⟨active, hlast, hid⟩ := Option.map_eq_some_iff.1 hnested.innermost
  obtain ⟨outer, hopened⟩ := List.getLast?_eq_some_iff.1 hlast
  have hmem : active ∈ engine.opened := hopened ▸ List.mem_append_right _ List.mem_cons_self
  exact ⟨outer, active, hopened, hid,
    hregular.ordered.activeBranch?_eq_some_iff.2 ⟨(mem_opened.1 hmem).1, hid⟩⟩

theorem activeChain_eq (hnested : engine.Nested) (hregular : engine.Regular) :
    engine.activeChain = (engine.opened.map Branch.id).reverse := by
  obtain ⟨outer, active, hopened, hid, _⟩ := hnested.exists_active hregular
  obtain ⟨main, hfirst, hmain, _⟩ := hregular.anchored.head?_opened
  have hreversed : engine.opened.reverse = active :: outer.reverse := by
    rw [hopened, List.reverse_append, List.reverse_singleton, List.singleton_append]
  have hlinked := List.isChain_reverse.2 hnested.linked
  have hrootless : ∀ last ∈ engine.opened.reverse.getLast?, last.root = none := by
    intro last hlast
    rw [List.getLast?_reverse, hfirst, Option.mem_some_iff] at hlast
    have hmem := mem_opened.1 (List.mem_of_mem_head? (hlast ▸ hfirst))
    exact hregular.ordered.main_rootless last hmem.1 (hlast ▸ hmain)
  rw [activeChain, ← hid, ← List.map_reverse]
  have hdistinct : (engine.branches.reverse.map Branch.id).Nodup := by
    rw [List.map_reverse, List.nodup_reverse]
    exact hregular.ordered.nodup_id
  have hopen : engine.branches.reverse.filter (fun branch => engine.cursor < branch.stop) =
      active :: outer.reverse := by
    rw [List.filter_reverse]
    exact hreversed
  rw [hreversed] at hlinked hrootless ⊢
  exact rootsFrom_eq_map_id hdistinct hopen hlinked hrootless

theorem mem_activeChain_iff (hnested : engine.Nested) (hregular : engine.Regular)
    {branch : Branch} (hbranch : branch ∈ engine.branches) :
    branch.id ∈ engine.activeChain ↔ engine.cursor < branch.stop := by
  rw [hnested.activeChain_eq hregular, List.mem_reverse, List.mem_map]
  constructor
  · rintro ⟨other, hother, hid⟩
    have hmem := mem_opened.1 hother
    rw [← hregular.ordered.eq_of_id_eq hmem.1 hbranch hid]
    exact hmem.2
  · intro hopen
    exact ⟨branch, mem_opened.2 ⟨hbranch, hopen⟩, rfl⟩

/-- No branch is dropped where the walk moves before it goes over to another branch. -/
theorem collect_move (hnested : engine.Nested) (hregular : engine.Regular) (address : Address) :
    ({ engine with cursor := address } : Engine).collect = { engine with cursor := address } := by
  apply collect_eq_self
  intro branch hbranch
  change branch.id ∈ engine.activeChain ∨ _
  by_cases hempty : branch.slots = []
  · left
    by_cases hopen : engine.cursor < branch.stop
    · exact (hnested.mem_activeChain_iff hregular hbranch).2 hopen
    · exact hregular.settled branch hbranch (not_lt.1 hopen) hempty
  · exact Or.inr (Or.inr hempty)

/-! ## Walking on -/

theorem split_narrowing {branches : List Branch}
    (hnarrowing : branches.Pairwise fun outer inner => inner.stop ≤ outer.stop)
    (address : Address) :
    ∃ lasting ended, branches = lasting ++ ended ∧
      (∀ branch ∈ lasting, address < branch.stop) ∧ ∀ branch ∈ ended, branch.stop ≤ address := by
  induction branches with
  | nil => exact ⟨[], [], rfl, by simp, by simp⟩
  | cons branch rest ih =>
      rw [List.pairwise_cons] at hnarrowing
      by_cases hlasts : address < branch.stop
      · obtain ⟨lasting, ended, hsplit, hlasting, hended⟩ := ih hnarrowing.2
        refine ⟨branch :: lasting, ended, by rw [hsplit, List.cons_append], ?_, hended⟩
        simpa [hlasts] using hlasting
      · refine ⟨[], branch :: rest, rfl, by simp, ?_⟩
        intro other hother
        rcases List.mem_cons.1 hother with rfl | hother
        · exact not_lt.1 hlasts
        · exact le_trans (hnarrowing.1 other hother) (not_lt.1 hlasts)

/-- The open branches at an address ahead: some outer ones, the last of them on which
the walk goes on, and those that have ended. -/
theorem exists_resumed (hnested : engine.Nested) (hregular : engine.Regular)
    {address : Address} (haddress : address < .last) :
    ∃ outer resumed ended, engine.opened = (outer ++ [resumed]) ++ ended ∧
      (∀ branch ∈ outer ++ [resumed], address < branch.stop) ∧
      ∀ branch ∈ ended, branch.stop ≤ address := by
  obtain ⟨lasting, ended, hopened, hlasting, hended⟩ :=
    split_narrowing hnested.narrowing address
  obtain ⟨main, hfirst, _, hstop⟩ := hregular.anchored.head?_opened
  rcases List.eq_nil_or_concat lasting with rfl | ⟨outer, resumed, hconcat⟩
  · -- the main branch is open and lasts
    rw [hopened, List.nil_append] at hfirst
    have hmain := List.mem_of_mem_head? hfirst
    exact absurd haddress (not_lt.2 (hstop ▸ hended main hmain))
  · rw [List.concat_eq_append] at hconcat
    subst hconcat
    exact ⟨outer, resumed, ended, hopened, hlasting, hended⟩

/-- The outermost of the open branches that end here is found as the ending one. -/
theorem find?_ending (hnested : engine.Nested) (hregular : engine.Regular)
    {address : Address} {lasting inner : List Branch} {ending : Branch}
    (hopened : engine.opened = lasting ++ ending :: inner)
    (hlasting : ∀ branch ∈ lasting, address < branch.stop) (hstop : ending.stop = address) :
    engine.branches.find? (fun branch => engine.activeChain.contains branch.id &&
      branch.stop == address) = some ending := by
  have hopen : engine.opened.find? (fun branch => branch.stop == address) = some ending := by
    rw [hopened, List.find?_append, List.find?_eq_none.2, Option.none_or, List.find?_cons,
      beq_iff_eq.2 hstop]
    intro branch hbranch
    simpa using (ne_of_lt (hlasting branch hbranch)).symm
  rw [opened, List.find?_filter] at hopen
  rw [← hopen]
  apply List.find?_congr
  intro branch hbranch
  rw [Bool.eq_iff_iff]
  simp [hnested.mem_activeChain_iff hregular hbranch]

/-- The walk goes on with the innermost open branch that lasts beyond the address. -/
theorem advance_eq (hnested : engine.Nested) (hregular : engine.Regular) {address : Address}
    (hnext : ∀ branch ∈ engine.branches,
      ¬ (engine.cursor < branch.stop ∧ branch.stop < address))
    {outer ended : List Branch} {resumed : Branch}
    (hopened : engine.opened = (outer ++ [resumed]) ++ ended)
    (hlasting : ∀ branch ∈ outer ++ [resumed], address < branch.stop)
    (hended : ∀ branch ∈ ended, branch.stop ≤ address) :
    engine.advance address =
      (({ engine with cursor := address, active := resumed.id } : Engine).collect, .ok ()) := by
  have hcollect := hnested.collect_move hregular address
  obtain ⟨before, active, hactive, hid, hlookup⟩ := hnested.exists_active hregular
  cases ended with
  | nil =>
      -- nothing ends, so the active branch is the one to go on with
      rw [List.append_nil, hactive] at hopened
      obtain ⟨rfl, heq⟩ := List.append_inj' hopened rfl
      obtain rfl : active = resumed := by simpa using heq
      rw [hid, hcollect]
      exact advance_eq_self hcollect hlookup (hlasting active (by simp))
  | cons ending inner =>
      have hmem : ∀ branch ∈ ending :: inner,
          branch ∈ engine.branches ∧ engine.cursor < branch.stop :=
        fun branch hbranch => mem_opened.1 (hopened ▸ List.mem_append_right _ hbranch)
      have hstop : ending.stop = address := by
        have hending := hmem ending List.mem_cons_self
        by_contra hne
        exact hnext ending hending.1
          ⟨hending.2, lt_of_le_of_ne (hended ending List.mem_cons_self) hne⟩
      have hclosed : active.closedAt address = true := by
        have hlast : (ending :: inner).getLast? = some active := by
          rw [← List.getLast?_append_of_ne_nil (outer ++ [resumed]) (List.cons_ne_nil _ _),
            ← hopened, hactive, List.getLast?_concat]
        exact decide_eq_true (hended active (List.mem_of_mem_getLast? hlast))
      have hroot : ending.root = some resumed.id := by
        have hlinked := hnested.linked
        rw [hopened, List.isChain_append] at hlinked
        exact hlinked.2.2 resumed (by simp) ending rfl
      have hlive : (engine.branch? resumed.id).isSome = true := by
        rw [branch?, List.find?_isSome]
        have hresumed : resumed ∈ engine.opened := by simp [hopened]
        exact ⟨resumed, (mem_opened.1 hresumed).1, beq_self_eq_true _⟩
      exact advance_eq_switch hcollect hlookup hclosed
        (hnested.find?_ending hregular hopened hlasting hstop) hroot hlive

/-- A walk splits the open branches into those that last, the innermost of which becomes
active, and those that have ended. -/
theorem exists_advance_eq (hnested : engine.Nested) (hregular : engine.Regular)
    {address : Address} (hallowed : nestedUse engine (.advance address)) :
    ∃ outer resumed ended, engine.opened = (outer ++ [resumed]) ++ ended ∧
      engine.opened.filter (fun branch => address < branch.stop) = outer ++ [resumed] ∧
      engine.advance address =
        (({ engine with cursor := address, active := resumed.id } : Engine).collect, .ok ()) := by
  obtain ⟨_, haddress, hnext⟩ := hallowed
  obtain ⟨outer, resumed, ended, hopened, hlasting, hended⟩ :=
    hnested.exists_resumed hregular haddress
  refine ⟨outer, resumed, ended, hopened, ?_,
    hnested.advance_eq hregular hnext hopened hlasting hended⟩
  rw [hopened, List.filter_append,
    List.filter_eq_self.2 fun branch hbranch => decide_eq_true (hlasting branch hbranch),
    List.filter_eq_nil_iff.2 fun branch hbranch => by simpa using hended branch hbranch,
    List.append_nil]

theorem opened_advance (hnested : engine.Nested) (hregular : engine.Regular) {address : Address}
    (hallowed : nestedUse engine (.advance address)) :
    (engine.advance address).1.opened =
      engine.opened.filter fun branch => address < branch.stop := by
  obtain ⟨_, _, _, _, _, hadvance⟩ := hnested.exists_advance_eq hregular hallowed
  rw [hadvance, opened_collect, opened_move hallowed.1]

/-! ## Every step keeps arms nested -/

theorem advance (hnested : engine.Nested) (hregular : engine.Regular) {address : Address}
    (hallowed : nestedUse engine (.advance address)) :
    (engine.advance address).2 = .ok () ∧ (engine.advance address).1.Nested := by
  obtain ⟨outer, resumed, ended, hopened, hlasting, hadvance⟩ :=
    hnested.exists_advance_eq hregular hallowed
  have hmoved : (engine.advance address).1.opened = outer ++ [resumed] := by
    rw [hnested.opened_advance hregular hallowed, hlasting]
  have hsub : ∀ branch ∈ outer ++ [resumed], branch ∈ engine.opened :=
    fun branch hbranch => hopened ▸ List.mem_append_left _ hbranch
  rw [hadvance] at hmoved ⊢
  refine ⟨rfl, ?_, ?_, ?_, ?_⟩
  · rw [hmoved]
    exact (hopened ▸ hnested.linked).left_of_append
  · rw [hmoved, List.getLast?_concat]
    rfl
  · rw [hmoved]
    exact (List.pairwise_append.1 (hopened ▸ hnested.narrowing)).1
  · rw [hmoved]
    exact fun branch hbranch => hnested.solid branch (hsub branch hbranch)

theorem collect (hnested : engine.Nested) : engine.collect.Nested := by
  obtain ⟨hlinked, hinnermost, hnarrowing, hsolid⟩ := hnested
  rw [← opened_collect] at hlinked hinnermost hnarrowing hsolid
  exact ⟨hlinked, hinnermost, hnarrowing, hsolid⟩

theorem mapSlots {slots : Branch → List Slot}
    (hslots : ∀ branch ∈ engine.opened, Slot.hole ∉ branch.slots → Slot.hole ∉ slots branch)
    (hnested : engine.Nested) : (engine.mapSlots slots).Nested := by
  refine ⟨?_, ?_, ?_, ?_⟩
  · rw [opened_mapSlots, List.isChain_map]
    exact hnested.linked
  · rw [opened_mapSlots, List.getLast?_map, Option.map_map]
    exact hnested.innermost
  · rw [opened_mapSlots, List.pairwise_map]
    exact hnested.narrowing
  · intro branch hbranch
    rw [opened_mapSlots, List.mem_map] at hbranch
    obtain ⟨held, hheld, rfl⟩ := hbranch
    exact hslots held hheld (hnested.solid held hheld)

theorem push (hnested : engine.Nested) (address : Address) : (engine.push address).Nested := by
  rw [push_eq_mapSlots]
  apply hnested.mapSlots
  intro branch hbranch hsolid
  rw [pushedSlots]
  split
  · simpa using hsolid
  · split
    · next hmerging =>
      -- only branches that have ended merge
      exact absurd (mem_opened.1 hbranch).2 (not_lt.2 (stop_le_of_isMerging hmerging))
    · exact hsolid

theorem dropTop (hnested : engine.Nested) : engine.dropTop.Nested := by
  rw [dropTop_eq_mapSlots]
  apply hnested.mapSlots
  intro branch _ hsolid
  rw [droppedSlots]
  split
  · exact fun hhole => hsolid (List.mem_of_mem_tail hhole)
  · exact hsolid

theorem pop (hnested : engine.Nested) (listing : Listing) : (engine.pop listing).1.Nested :=
  pop_induction engine listing hnested (fun _ => hnested.dropTop) hnested.dropTop.collect

theorem fork (hnested : engine.Nested) (hregular : engine.Regular) {stop : Address}
    (hallowed : nestedUse engine (.fork stop)) : (engine.fork stop).Nested := by
  obtain ⟨outer, active, hopened, hid, hlookup⟩ := hnested.exists_active hregular
  have hwithin : stop ≤ active.stop := hallowed.2 active hlookup
  refine ⟨?_, ?_, ?_, ?_⟩
  · rw [opened_fork hallowed.1, List.isChain_append]
    refine ⟨hnested.linked, List.isChain_singleton _, ?_⟩
    intro last hlast inner hinner
    rw [hopened, List.getLast?_concat, Option.mem_some_iff] at hlast
    rw [List.head?_cons, Option.mem_some_iff] at hinner
    rw [← hinner, ← hlast, hid]
  · rw [opened_fork hallowed.1, List.getLast?_concat]
    rfl
  · rw [opened_fork hallowed.1, List.pairwise_append]
    refine ⟨hnested.narrowing, List.pairwise_singleton _ _, ?_⟩
    intro branch hbranch inner hinner
    rw [List.mem_singleton.1 hinner]
    have hnarrowing := hnested.narrowing
    rw [hopened, List.pairwise_append] at hnarrowing
    rw [hopened] at hbranch
    rcases List.mem_append.1 hbranch with hbranch | hbranch
    · exact le_trans hwithin (hnarrowing.2.2 branch hbranch active List.mem_cons_self)
    · rw [List.mem_singleton.1 hbranch]
      exact hwithin
  · intro branch hbranch
    rw [opened_fork hallowed.1] at hbranch
    rcases List.mem_append.1 hbranch with hbranch | hbranch
    · exact hnested.solid branch hbranch
    · rw [List.mem_singleton.1 hbranch]
      exact List.not_mem_nil

theorem perform (hnested : engine.Nested) (hregular : engine.Regular) (listing : Listing)
    {operation : Operation} (hallowed : nestedUse engine operation) :
    (engine.perform listing operation).1.Nested := by
  cases operation with
  | advance address => exact (hnested.advance hregular hallowed).2
  | push address => exact hnested.push address
  | pop => exact hnested.pop listing
  | fork stop => exact hnested.fork hregular hallowed
  | forkAt address => exact hallowed.elim
  | reset => exact hallowed.elim

end Nested

theorem nested_withMain (id : BranchId) : (withMain id).Nested := by
  have hopened : (withMain id).opened = [{ id, stop := .last, root := none }] := rfl
  refine ⟨?_, ?_, ?_, ?_⟩
  · rw [hopened]
    exact List.isChain_singleton _
  · rw [hopened]
    rfl
  · rw [hopened]
    exact List.pairwise_singleton _ _
  · rw [hopened]
    intro branch hbranch
    rw [List.mem_singleton.1 hbranch]
    exact List.not_mem_nil

theorem belowLast_of_nestedUse (engine : Engine) (operation : Operation)
    (hallowed : nestedUse engine operation) : belowLast engine operation := by
  cases operation with
  | advance address => exact hallowed.2.1
  | _ => trivial

theorem Reachable.regular {engine : Engine} (hreachable : Reachable nestedUse engine) :
    engine.Regular :=
  ⟨hreachable.ordered, hreachable.settled, (hreachable.mono belowLast_of_nestedUse).anchored⟩

theorem Reachable.nested {engine : Engine} (hreachable : Reachable nestedUse engine) :
    engine.Nested := by
  induction hreachable with
  | start => exact nested_withMain 0
  | step listing operation hreachable hallowed ih =>
      exact ih.perform hreachable.regular listing hallowed

namespace Nested

variable {engine : Engine}

/-- A second walk to where the walk is already changes nothing. -/
theorem advance_cursor (hnested : engine.Nested) (hregular : engine.Regular) :
    engine.advance engine.cursor = (engine, .ok ()) := by
  obtain ⟨_, active, hopened, _, hlookup⟩ := hnested.exists_active hregular
  have hactive : active ∈ engine.opened := by simp [hopened]
  exact advance_eq_self (hnested.collect_move hregular _) hlookup
    (mem_opened.1 hactive).2

theorem slot_ne_hole (hnested : engine.Nested) (hregular : engine.Regular) {listing : Listing}
    {popped : Popped} (hpopped : (engine.pop listing).2.2 = .ok popped) :
    popped.slot ≠ .hole := by
  obtain ⟨_, active, hopened, _, hlookup⟩ := hnested.exists_active hregular
  have hsolid : Slot.hole ∉ active.slots := hnested.solid active (by simp [hopened])
  have htop := (pop_eq_ok hpopped).1
  rw [hlookup, Option.bind_some] at htop
  intro hhole
  rw [hhole] at htop
  exact hsolid (List.mem_of_mem_head? htop)

end Nested

/-- In a properly nested run every walk arrives, and the branches that last beyond the
address stay open.  The open branches are the active chain up to the main branch, each
lasting no longer than its root, ended branches hold something, open ones have no holes,
and walking twice to one address is walking once. -/
theorem nested_of_reachable (engine : Engine) (hreachable : Reachable nestedUse engine) :
    (∀ address, nestedUse engine (.advance address) →
        (engine.advance address).2 = .ok () ∧
        (engine.advance address).1.cursor = address ∧
        (engine.advance address).1.opened =
          engine.opened.filter (fun branch => address < branch.stop) ∧
        (engine.advance address).1.advance address = ((engine.advance address).1, .ok ())) ∧
      (∃ active, engine.activeBranch? = some active ∧ engine.cursor < active.stop) ∧
      engine.activeChain = (engine.opened.map Branch.id).reverse ∧
      engine.activeChain.getLast? = some engine.main ∧
      engine.opened.Pairwise (fun outer inner => inner.stop ≤ outer.stop) ∧
      (∀ branch ∈ engine.branches, branch.stop ≤ engine.cursor → branch.slots ≠ []) ∧
      (∀ branch ∈ engine.branches, engine.cursor < branch.stop → Slot.hole ∉ branch.slots) ∧
      (∀ listing popped, (engine.pop listing).2.2 = .ok popped → popped.slot ≠ .hole) ∧
      engine.advance engine.cursor = (engine, .ok ()) := by
  have hregular := hreachable.regular
  have hnested := hreachable.nested
  have hchain := hnested.activeChain_eq hregular
  refine ⟨?_, ?_, hchain, ?_, hnested.narrowing, ?_, ?_, ?_, hnested.advance_cursor hregular⟩
  · intro address hallowed
    have hnext : Reachable nestedUse (engine.advance address).1 :=
      .step .empty (.advance address) hreachable hallowed
    have hagain := hnext.nested.advance_cursor hnext.regular
    rw [cursor_advance] at hagain
    exact ⟨(hnested.advance hregular hallowed).1, cursor_advance engine address,
      hnested.opened_advance hregular hallowed, hagain⟩
  · obtain ⟨_, active, hopened, _, hlookup⟩ := hnested.exists_active hregular
    have hactive : active ∈ engine.opened := by simp [hopened]
    exact ⟨active, hlookup, (mem_opened.1 hactive).2⟩
  · obtain ⟨main, hfirst, hmain, _⟩ := hregular.anchored.head?_opened
    rw [hchain, List.getLast?_reverse, List.head?_map, hfirst, Option.map_some, hmain]
  · intro branch hbranch hended hempty
    have hmem := hregular.settled branch hbranch hended hempty
    rw [hnested.mem_activeChain_iff hregular hbranch] at hmem
    exact absurd hended (not_le.2 hmem)
  · intro branch hbranch hopen
    exact hnested.solid branch (mem_opened.2 ⟨hbranch, hopen⟩)
  · intro listing popped hpopped
    exact hnested.slot_ne_hole hregular hpopped

theorem reachable_sharedEnd : Reachable nestedUse sharedEnd :=
  .step .empty (.push ⟨2⟩) (.step .empty (.fork ⟨3⟩)
    (.step .empty (.fork ⟨3⟩) .start ⟨by decide, by decide⟩) ⟨by decide, by decide⟩) trivial

/-- Both arms end at once.  The walk goes on with the main branch, the outer arm is dropped,
and the inner one keeps its value. -/
theorem nested_of_reachable_sharedEnd :
    nestedUse sharedEnd (.advance ⟨3⟩) ∧ (sharedEnd.advance ⟨3⟩).2 = .ok () ∧
      (sharedEnd.advance ⟨3⟩).1.cursor = ⟨3⟩ ∧
      (sharedEnd.advance ⟨3⟩).1.advance ⟨3⟩ = ((sharedEnd.advance ⟨3⟩).1, .ok ()) ∧
      sharedEnd.activeChain = [2, 1, 0] ∧ sharedEnd.opened.map Branch.id = [0, 1, 2] ∧
      (sharedEnd.advance ⟨3⟩).1.activeChain = [0] ∧
      (sharedEnd.advance ⟨3⟩).1.branches =
        [⟨0, .last, none, []⟩, ⟨2, ⟨3⟩, some 1, [.value ⟨2⟩]⟩] ∧
      (∀ branch ∈ (sharedEnd.advance ⟨3⟩).1.branches,
        branch.stop ≤ ⟨3⟩ → branch.slots ≠ []) ∧
      (sharedEnd.pop .empty).2.2 = .ok ⟨.value ⟨2⟩, none⟩ ∧
      ∀ listing popped, (sharedEnd.pop listing).2.2 = .ok popped → popped.slot ≠ .hole := by
  have hnext : nestedUse sharedEnd (.advance ⟨3⟩) := ⟨by decide, by decide, by decide⟩
  obtain ⟨hwalks, _, hchain, _, _, _, _, hpops, _⟩ :=
    nested_of_reachable sharedEnd reachable_sharedEnd
  obtain ⟨hok, hcursor, hopened, hagain⟩ := hwalks _ hnext
  obtain ⟨_, _, hafter, _, _, hkept, _⟩ := nested_of_reachable (sharedEnd.advance ⟨3⟩).1
    (.step .empty (.advance ⟨3⟩) reachable_sharedEnd hnext)
  rw [hcursor] at hkept
  refine ⟨hnext, hok, hcursor, hagain, hchain, rfl, ?_, by decide, hkept, rfl, hpops⟩
  rw [hafter, hopened]
  rfl

end StackLift.Engine
