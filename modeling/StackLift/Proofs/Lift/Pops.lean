import StackLift.Lift.Walk
import StackLift.Proofs.Engine.Account

/-!
# Taking operands from the engine

While the operands of an instruction are popped, the engine and the listing keep
step with each other: every value on a stack was produced by an instruction that
has been visited, and every phi set that has been attached consists of values that
are no longer on a stack.  Each operand accounts for the values that it takes off
the stacks.
-/

namespace StackLift

namespace Engine

/-- The engine and the listing of the given code, of which the given instructions
have been visited, fit together. -/
structure Tracks (engine : Engine) (listing : Listing)
    (code visited : List Instruction) : Prop where
  indexes : listing.Indexes code
  ordered : engine.Ordered
  settled : engine.Settled
  grounded : engine.Grounded
  stacked : engine.Stacked
  distinct : engine.values.Nodup
  produced : ∀ value ∈ engine.values, value ∈ visited.map Instruction.address
  merged : ∀ consumer phi, listing.phiAt? consumer = some phi →
    (∀ value ∈ phi.values,
      value ∈ visited.map Instruction.address ∧ value ∉ engine.values) ∧
    ∃ anchor, phi.anchor? = some anchor ∧ listing.next? anchor = some consumer

/-- The slots of the active branch, topmost first. -/
def activeSlots (engine : Engine) : List Slot :=
  (engine.activeBranch?.map Branch.slots).getD []

variable {engine : Engine} {listing : Listing} {code visited : List Instruction}

theorem activeSlots_eq_of_mem (hordered : engine.Ordered) {branch : Branch}
    (hbranch : branch ∈ engine.branches) (hid : branch.id = engine.active) :
    engine.activeSlots = branch.slots := by
  rw [activeSlots, hordered.activeBranch?_eq_some_iff.2 ⟨hbranch, hid⟩]
  rfl

theorem mem_values_of_mem_activeSlots (hordered : engine.Ordered) {value : Address}
    (hvalue : .value value ∈ engine.activeSlots) : value ∈ engine.values := by
  obtain ⟨branch, hbranch, hid⟩ := hordered.active_live
  rw [activeSlots_eq_of_mem hordered hbranch hid] at hvalue
  exact List.mem_flatMap.2 ⟨branch, hbranch, List.mem_filterMap.2 ⟨_, hvalue, rfl⟩⟩

theorem activeSlots_collect (hordered : engine.Ordered) :
    engine.collect.activeSlots = engine.activeSlots := by
  obtain ⟨branch, hbranch, hid⟩ := hordered.collect.active_live
  rw [activeSlots_eq_of_mem hordered.collect hbranch hid,
    activeSlots_eq_of_mem hordered (mem_of_mem_collect hbranch) hid]

theorem activeSlots_dropTop (hordered : engine.Ordered) :
    engine.dropTop.activeSlots = engine.activeSlots.tail := by
  obtain ⟨branch, hbranch, hid⟩ := hordered.active_live
  have hdropped : ({ branch with slots := engine.droppedSlots branch } : Branch) ∈
      engine.dropTop.branches := by
    rw [dropTop_eq_mapSlots, mem_mapSlots]
    exact ⟨branch, hbranch, rfl⟩
  rw [activeSlots_eq_of_mem hordered hbranch hid,
    activeSlots_eq_of_mem hordered.dropTop hdropped hid, droppedSlots,
    if_pos (Or.inl hid)]

theorem activeSlots_eq_cons {slot : Slot}
    (hslot : engine.activeBranch?.bind Branch.top? = some slot) :
    engine.activeSlots = slot :: engine.activeSlots.tail := by
  obtain ⟨branch, hbranch, htop⟩ := Option.bind_eq_some_iff.1 hslot
  rw [activeSlots, hbranch, Option.map_some, Option.getD_some]
  exact (List.cons_head?_tail htop).symm

/-- What a successful pop does to the active branch. -/
theorem Ordered.activeSlots_of_pop (hordered : engine.Ordered) {slot : Popped} {popped : Engine}
    {merged : Listing} (hpop : engine.pop listing = (popped, merged, .ok slot)) :
    engine.activeSlots = slot.slot :: popped.activeSlots ∧
      popped.cursor = engine.cursor ∧ popped.active = engine.active := by
  have htaken := Engine.pop_eq_ok (congrArg (fun result => result.2.2) hpop)
  rw [hpop] at htaken
  obtain ⟨htop, rfl | rfl⟩ := htaken
  · rw [activeSlots_dropTop hordered]
    exact ⟨activeSlots_eq_cons htop, rfl, rfl⟩
  · rw [activeSlots_collect hordered.dropTop, activeSlots_dropTop hordered]
    exact ⟨activeSlots_eq_cons htop, rfl, rfl⟩

/-- An engine that keeps account of the visited instructions' values. -/
theorem Accounts.tracks
    (haccounts : engine.Accounts listing code (visited.map Instruction.address))
    (hsettled : engine.Settled) (hgrounded : engine.Grounded) (hstacked : engine.Stacked) :
    engine.Tracks listing code visited :=
  ⟨haccounts.indexes, haccounts.ordered, hsettled, hgrounded, hstacked, haccounts.distinct,
    haccounts.held, haccounts.merged⟩

namespace Tracks

theorem accounts (htracks : engine.Tracks listing code visited) :
    engine.Accounts listing code (visited.map Instruction.address) :=
  ⟨htracks.indexes, htracks.ordered, htracks.distinct, htracks.produced, htracks.merged⟩

/-- Values on the stacks have a successor that has no phi set yet. -/
theorem exists_free_next (htracks : engine.Tracks listing code visited)
    (hcode : Checked code) {instruction : Instruction} {rest : List Instruction}
    (hsplit : code = visited ++ instruction :: rest) {value : Address}
    (hvalue : value ∈ engine.values) :
    ∃ next, listing.next? value = some next ∧ listing.contains next = true ∧
      listing.phiAt? next = none :=
  htracks.accounts.exists_free_next hcode hvalue
    (htracks.indexes.exists_next?_of_mem hcode hsplit (htracks.produced value hvalue))

end Tracks

/-- What became of engine and listing when the given slots were taken, the last one
first. -/
structure PopsSlots (engine : Engine) (listing : Listing) (code visited : List Instruction)
    (slots : List Popped) (popped : Engine) (merged : Listing) : Prop where
  tracks : popped.Tracks merged code visited
  kept : merged.Extends listing
  noted : ∀ slot ∈ slots, slot.Noted merged
  values : engine.values.Perm (slots.flatMap (·.taken merged) ++ popped.values)
  notesConsistent : listing.NotesConsistent code → merged.NotesConsistent code
  table : merged.phiTable.Perm (slots.flatMap (·.entries merged) ++ listing.phiTable)
  activeSlots : engine.activeSlots =
    (slots.map Popped.slot).reverse ++ popped.activeSlots
  cursor : popped.cursor = engine.cursor
  active : popped.active = engine.active

theorem PopsSlots.refl (htracks : engine.Tracks listing code visited) :
    engine.PopsSlots listing code visited [] engine listing :=
  ⟨htracks, .refl listing, by simp, List.Perm.refl _, id, List.Perm.refl _, rfl, rfl, rfl⟩

theorem PopsSlots.trans {first second : List Popped} {middle popped : Engine}
    {between merged : Listing}
    (hfirst : engine.PopsSlots listing code visited first middle between)
    (hsecond : middle.PopsSlots between code visited second popped merged) :
    engine.PopsSlots listing code visited (second ++ first) popped merged where
  tracks := hsecond.tracks
  kept := hsecond.kept.trans hfirst.kept
  noted := by
    intro slot hslot
    rcases List.mem_append.1 hslot with hslot | hslot
    · exact hsecond.noted slot hslot
    · exact (hfirst.noted slot hslot).extends hsecond.kept
  values := by
    have hsame : first.flatMap (·.taken merged) = first.flatMap (·.taken between) := by
      apply List.flatMap_congr
      intro slot hslot
      exact Popped.taken_eq_of_extends hsecond.kept (hfirst.noted slot hslot)
    rw [List.flatMap_append, hsame]
    refine hfirst.values.trans ((hsecond.values.append_left _).trans ?_)
    rw [← List.append_assoc]
    exact List.perm_append_comm.append_right _
  notesConsistent hnotes := hsecond.notesConsistent (hfirst.notesConsistent hnotes)
  table := by
    have hsame : first.flatMap (·.entries merged) = first.flatMap (·.entries between) := by
      apply List.flatMap_congr
      intro slot hslot
      exact Popped.entries_eq_of_extends hsecond.kept (hfirst.noted slot hslot)
    rw [List.flatMap_append, hsame, List.append_assoc]
    exact hsecond.table.trans (hfirst.table.append_left _)
  activeSlots := by
    rw [hfirst.activeSlots, hsecond.activeSlots, List.map_append, List.reverse_append,
      List.append_assoc]
  cursor := hsecond.cursor.trans hfirst.cursor
  active := hsecond.active.trans hfirst.active

/-- A pop fails on an empty branch only.  Otherwise it takes one slot. -/
theorem Tracks.pop (htracks : engine.Tracks listing code visited) (hcode : Checked code)
    {instruction : Instruction} {rest : List Instruction}
    (hsplit : code = visited ++ instruction :: rest) :
    engine.pop listing =
        (engine, listing, .error (.underflow engine.active (some engine.cursor))) ∨
      ∃ slot popped merged, engine.pop listing = (popped, merged, .ok slot) ∧
        engine.PopsSlots listing code visited [slot] popped merged := by
  have hordered := htracks.ordered
  have hsettled := htracks.settled.pop hordered listing
  have hgrounded := htracks.grounded.pop listing
  have hstacked := htracks.stacked.pop listing
  rcases htracks.accounts.pop hcode
      (fun _ hvalue => htracks.indexes.exists_next?_of_mem hcode hsplit hvalue) with
    ⟨_, heq⟩ | ⟨slot, popped, merged, heq, hpopsSlot⟩
  · exact Or.inl heq
  · right
    rw [heq] at hsettled hgrounded hstacked
    obtain ⟨hslots, hcursor, hactive⟩ := hordered.activeSlots_of_pop heq
    refine ⟨slot, popped, merged, heq, hpopsSlot.accounts.tracks hsettled hgrounded hstacked,
      hpopsSlot.kept, ?_, ?_, hpopsSlot.notesConsistent, ?_, hslots, hcursor, hactive⟩
    · intro taken htaken
      rw [List.mem_singleton.1 htaken]
      exact hpopsSlot.noted
    · rw [List.flatMap_singleton]
      exact hpopsSlot.values
    · rw [List.flatMap_singleton]
      exact hpopsSlot.table

theorem popSlots_add {popped : Engine} {merged : Listing} {count : Nat}
    {earlier taken : List Popped}
    (hpops : engine.popSlots listing count earlier = (popped, merged, .ok taken)) (more : Nat) :
    engine.popSlots listing (count + more) earlier = popped.popSlots merged more taken := by
  induction count generalizing engine listing earlier with
  | zero =>
      rw [Engine.popSlots] at hpops
      cases hpops
      rw [Nat.zero_add]
  | succ count ih =>
      rw [Nat.succ_add, Engine.popSlots]
      rw [Engine.popSlots] at hpops
      revert hpops
      obtain ⟨middle, between, result⟩ := engine.pop listing
      intro hpops
      cases result with
      | error error => cases hpops
      | ok slot => exact ih hpops

theorem popSlots_one {popped : Engine} {merged : Listing} {slot : Popped}
    (hpop : engine.pop listing = (popped, merged, .ok slot)) (taken : List Popped) :
    engine.popSlots listing 1 taken = (popped, merged, .ok (slot :: taken)) := by
  simp only [Engine.popSlots, hpop]

/-- Popping stops at an empty branch, or takes as many slots as it is asked for. -/
theorem Tracks.popSlots (hcode : Checked code) {instruction : Instruction}
    {rest : List Instruction} (hsplit : code = visited ++ instruction :: rest)
    (count : Nat) (earlier : List Popped) (htracks : engine.Tracks listing code visited) :
    (∃ popped merged, engine.popSlots listing count earlier =
      (popped, merged, .error (.underflow engine.active (some engine.cursor)))) ∨
    ∃ slots popped merged,
      engine.popSlots listing count earlier = (popped, merged, .ok (slots ++ earlier)) ∧
        slots.length = count ∧ engine.PopsSlots listing code visited slots popped merged := by
  induction count generalizing engine listing earlier with
  | zero => exact Or.inr ⟨[], engine, listing, rfl, rfl, .refl htracks⟩
  | succ count ih =>
      rcases htracks.pop hcode hsplit with heq | ⟨slot, middle, between, heq, hpopsSlots⟩
      · exact Or.inl ⟨engine, listing, by simp only [Engine.popSlots, heq]⟩
      · rcases ih (slot :: earlier) hpopsSlots.tracks with
          ⟨popped, merged, hrest⟩ | ⟨slots, popped, merged, hrest, hlength, hmore⟩
        · left
          refine ⟨popped, merged, ?_⟩
          simp only [Engine.popSlots, heq, hrest, hpopsSlots.active, hpopsSlots.cursor]
        · right
          refine ⟨slots ++ [slot], popped, merged, ?_, ?_, hpopsSlots.trans hmore⟩
          · simp only [Engine.popSlots, heq, hrest, List.append_assoc,
              List.singleton_append]
          · rw [List.length_append, hlength, List.length_singleton]

end Engine

end StackLift
