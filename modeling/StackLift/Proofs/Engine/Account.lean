import StackLift.Proofs.Engine.Values

/-!
# Keeping account of values

Every value that was put on a stack is still held by some branch or has been taken off
by a pop, and a pop that merges writes down what it takes as a phi set.  No phi set
shares a value with another one or with a branch.  Two phi sets therefore never have
the same last value, and a pop can fail only on an empty branch.
-/

namespace StackLift

/-- The later listing has all phi sets of the earlier one. -/
def Listing.Extends (later earlier : Listing) : Prop :=
  ∀ consumer phi, earlier.phiAt? consumer = some phi → later.phiAt? consumer = some phi

theorem Listing.Extends.refl (listing : Listing) : listing.Extends listing :=
  fun _ _ hphi => hphi

theorem Listing.Extends.trans {last later earlier : Listing}
    (hlast : last.Extends later) (hlater : later.Extends earlier) :
    last.Extends earlier :=
  fun consumer phi hphi => hlast consumer phi (hlater consumer phi hphi)

namespace Popped

/-- The values that a popped slot stands for. -/
def taken (popped : Popped) (listing : Listing) : List Address :=
  match popped.merge with
  | none => popped.slot.value?.toList
  | some consumer => ((listing.phiAt? consumer).map Phi.values).getD []

/-- The phi set that a merged slot has got, with its consumer. -/
def entries (popped : Popped) (listing : Listing) : List (Address × Phi) :=
  match popped.merge with
  | none => []
  | some consumer => ((listing.phiAt? consumer).map (Prod.mk consumer)).toList

/-- The phi set of a merged slot is in the listing, and the slot's own value comes
last in it, behind others. -/
structure Noted (popped : Popped) (listing : Listing) : Prop where
  phi_isSome : ∀ consumer, popped.merge = some consumer →
    (listing.phiAt? consumer).isSome = true
  own_last : ∃ others, popped.taken listing = others ++ popped.slot.value?.toList ∧
    (popped.merge.isSome = true → others ≠ [])

theorem taken_eq_of_extends {popped : Popped} {later earlier : Listing}
    (hextends : later.Extends earlier) (hnoted : popped.Noted earlier) :
    popped.taken later = popped.taken earlier := by
  rw [taken, taken]
  split
  · rfl
  · next consumer hmerge =>
    obtain ⟨phi, hphi⟩ := Option.isSome_iff_exists.1 (hnoted.phi_isSome consumer hmerge)
    rw [hphi, hextends consumer phi hphi]

theorem entries_eq_of_extends {popped : Popped} {later earlier : Listing}
    (hextends : later.Extends earlier) (hnoted : popped.Noted earlier) :
    popped.entries later = popped.entries earlier := by
  rw [entries, entries]
  split
  · rfl
  · next consumer hmerge =>
    obtain ⟨phi, hphi⟩ := Option.isSome_iff_exists.1 (hnoted.phi_isSome consumer hmerge)
    rw [hphi, hextends consumer phi hphi]

theorem Noted.extends {popped : Popped} {later earlier : Listing}
    (hextends : later.Extends earlier) (hnoted : popped.Noted earlier) :
    popped.Noted later where
  phi_isSome := by
    intro consumer hmerge
    obtain ⟨phi, hphi⟩ := Option.isSome_iff_exists.1 (hnoted.phi_isSome consumer hmerge)
    rw [hextends consumer phi hphi]
    rfl
  own_last := by
    rw [taken_eq_of_extends hextends hnoted]
    exact hnoted.own_last

end Popped

namespace Engine

/-- The listing of the given code keeps account of the values that have been issued:
each is held by at most one branch, and by none if it belongs to a phi set. -/
structure Accounts (engine : Engine) (listing : Listing) (code : List Instruction)
    (issued : List Address) : Prop where
  indexes : listing.Indexes code
  ordered : engine.Ordered
  distinct : engine.values.Nodup
  held : ∀ value ∈ engine.values, value ∈ issued
  merged : ∀ consumer phi, listing.phiAt? consumer = some phi →
    (∀ value ∈ phi.values, value ∈ issued ∧ value ∉ engine.values) ∧
    ∃ anchor, phi.anchor? = some anchor ∧ listing.next? anchor = some consumer

variable {engine : Engine} {listing : Listing} {code : List Instruction}
  {issued : List Address}

theorem extends_attach {phi : Phi} {consumer : Address}
    (links : Std.TreeMap Address (List Address)) (hfree : listing.phiAt? consumer = none) :
    ({ listing with links := links, phis := listing.phis.insert consumer phi } :
      Listing).Extends listing := by
  intro other attached hattached
  rw [Listing.phiAt?, Std.TreeMap.getElem?_insert]
  split
  · next heq =>
    rw [Std.LawfulEqCmp.compare_eq_iff_eq] at heq
    rw [← heq, hfree] at hattached
    cases hattached
  · exact hattached

theorem phiAt?_attach {phi : Phi} {consumer : Address}
    (links : Std.TreeMap Address (List Address)) :
    ({ listing with links := links, phis := listing.phis.insert consumer phi } :
      Listing).phiAt? consumer = some phi := by
  rw [Listing.phiAt?, Std.TreeMap.getElem?_insert_self]

theorem accounts_withMain (hindexes : listing.Indexes code) (hphis : listing.phis = ∅)
    (id : BranchId) (issued : List Address) :
    (withMain id).Accounts listing code issued := by
  refine ⟨hindexes, ordered_withMain id, List.nodup_nil, ?_, ?_⟩
  · intro value hvalue
    cases hvalue
  · intro consumer phi hphi
    rw [Listing.phiAt?, hphis, Std.TreeMap.getElem?_emptyc] at hphi
    cases hphi

namespace Accounts

/-- Values that have been taken off the stacks are still accounted for. -/
theorem of_values_perm (haccounts : engine.Accounts listing code issued) {later : Engine}
    {taken : List Address} (hordered : later.Ordered)
    (hperm : engine.values.Perm (taken ++ later.values)) :
    later.Accounts listing code issued := by
  have hkept : ∀ value ∈ later.values, value ∈ engine.values :=
    fun value hvalue => hperm.mem_iff.2 (List.mem_append_right _ hvalue)
  refine ⟨haccounts.indexes, hordered, ?_,
    fun value hvalue => haccounts.held value (hkept value hvalue), ?_⟩
  · exact (List.nodup_append.1 (hperm.nodup haccounts.distinct)).2.1
  · intro consumer phi hphi
    obtain ⟨hvalues, hanchor⟩ := haccounts.merged consumer phi hphi
    exact ⟨fun value hvalue => ⟨(hvalues value hvalue).1,
      fun hheld => (hvalues value hvalue).2 (hkept value hheld)⟩, hanchor⟩

/-- Only the values matter, not where they are held. -/
theorem of_values_eq (haccounts : engine.Accounts listing code issued) {later : Engine}
    (hordered : later.Ordered) (hvalues : later.values = engine.values) :
    later.Accounts listing code issued := by
  have hperm : engine.values.Perm ([] ++ later.values) := List.Perm.of_eq hvalues.symm
  exact haccounts.of_values_perm hordered hperm

theorem mono (haccounts : engine.Accounts listing code issued) {more : List Address}
    (hmore : ∀ value ∈ issued, value ∈ more) : engine.Accounts listing code more := by
  refine ⟨haccounts.indexes, haccounts.ordered, haccounts.distinct,
    fun value hvalue => hmore value (haccounts.held value hvalue), ?_⟩
  intro consumer phi hphi
  obtain ⟨hvalues, hanchor⟩ := haccounts.merged consumer phi hphi
  exact ⟨fun value hvalue => ⟨hmore value (hvalues value hvalue).1,
    (hvalues value hvalue).2⟩, hanchor⟩

/-- A value that has not been issued before can be put on a stack. -/
theorem push (haccounts : engine.Accounts listing code issued) {address : Address}
    (hfresh : address ∉ issued) {more : List Address}
    (hmore : ∀ value ∈ issued, value ∈ more) (haddress : address ∈ more) :
    (engine.push address).Accounts listing code more := by
  have hperm := haccounts.ordered.values_push_perm address
  have hmono := haccounts.mono hmore
  refine ⟨haccounts.indexes, haccounts.ordered.push address, ?_, ?_, ?_⟩
  · rw [hperm.nodup_iff, List.nodup_cons]
    exact ⟨fun hheld => hfresh (haccounts.held address hheld), haccounts.distinct⟩
  · intro value hvalue
    rcases List.mem_cons.1 (hperm.mem_iff.1 hvalue) with rfl | hold
    · exact haddress
    · exact hmono.held value hold
  · intro consumer phi hphi
    obtain ⟨hvalues, hanchor⟩ := hmono.merged consumer phi hphi
    refine ⟨fun value hvalue => ⟨(hvalues value hvalue).1, fun hheld => ?_⟩, hanchor⟩
    rcases List.mem_cons.1 (hperm.mem_iff.1 hheld) with rfl | hold
    · exact hfresh ((haccounts.merged consumer phi hphi).1 _ hvalue).1
    · exact (hvalues value hvalue).2 hold

/-- Values on the stacks have a successor that has no phi set yet. -/
theorem exists_free_next (haccounts : engine.Accounts listing code issued)
    (hcode : Checked code) {value : Address} (hvalue : value ∈ engine.values)
    (hnext : ∃ next, listing.next? value = some next) :
    ∃ next, listing.next? value = some next ∧ listing.contains next = true ∧
      listing.phiAt? next = none := by
  obtain ⟨next, hnext⟩ := hnext
  refine ⟨next, hnext, haccounts.indexes.contains_of_next? hcode hnext, ?_⟩
  cases hphi : listing.phiAt? next with
  | none => rfl
  | some phi =>
      -- its phi set would have this very value as the last one
      obtain ⟨hvalues, anchor, hanchor, hanchorNext⟩ := haccounts.merged next phi hphi
      have heq := haccounts.indexes.eq_of_next?_eq hcode hnext hanchorNext
      have hmem := (Phi.anchor?_eq_some_iff.1 hanchor).1
      exact absurd (heq ▸ hvalue) (hvalues anchor hmem).2

/-- A phi set may be attached for values that have just been taken off the stacks. -/
theorem attach (haccounts : engine.Accounts listing code issued)
    (links : Std.TreeMap Address (List Address)) {phi : Phi} {anchor consumer : Address}
    (hanchor : phi.anchor? = some anchor) (hconsumer : listing.next? anchor = some consumer)
    (hvalues : ∀ value ∈ phi.values, value ∈ issued ∧ value ∉ engine.values) :
    engine.Accounts { listing with links := links, phis := listing.phis.insert consumer phi }
      code issued := by
  refine ⟨haccounts.indexes.withNotes _ _ _, haccounts.ordered, haccounts.distinct,
    haccounts.held, ?_⟩
  intro other attached hattached
  rw [Listing.phiAt?, Std.TreeMap.getElem?_insert] at hattached
  split at hattached
  · next heq =>
    rw [Std.LawfulEqCmp.compare_eq_iff_eq] at heq
    rw [Option.some.injEq] at hattached
    subst hattached
    subst heq
    exact ⟨hvalues, anchor, hanchor, hconsumer⟩
  · exact haccounts.merged other attached hattached

end Accounts

/-- What became of engine and listing when a slot was taken. -/
structure PopsSlot (engine : Engine) (listing : Listing) (code : List Instruction)
    (issued : List Address) (slot : Popped) (popped : Engine) (merged : Listing) : Prop where
  accounts : popped.Accounts merged code issued
  kept : merged.Extends listing
  noted : slot.Noted merged
  values : engine.values.Perm (slot.taken merged ++ popped.values)
  notesConsistent : listing.NotesConsistent code → merged.NotesConsistent code
  table : merged.phiTable.Perm (slot.entries merged ++ listing.phiTable)

/-- A slot that nothing else was waiting for. -/
theorem PopsSlot.lone {slot : Slot} {popped : Engine}
    (haccounts : popped.Accounts listing code issued)
    (hvalues : engine.values.Perm (slot.value?.toList ++ popped.values)) :
    engine.PopsSlot listing code issued ⟨slot, none⟩ popped listing :=
  ⟨haccounts, .refl listing, ⟨by simp, [], rfl, by simp⟩, hvalues, id, List.Perm.refl _⟩

/-- A slot together with the values that were waiting, which are merged. -/
theorem PopsSlot.merged {slot : Slot} {popped : Engine} (hcode : Checked code)
    (hnext : ∀ value ∈ issued, ∃ next, listing.next? value = some next)
    (hbefore : engine.Accounts listing code issued)
    (haccounts : popped.Accounts listing code issued) (hwaiting : engine.waiting ≠ [])
    (hvalues : engine.values.Perm (engine.waiting ++ slot.value?.toList ++ popped.values)) :
    ∃ merged consumer,
      mergeValues engine.cursor listing (engine.waiting ++ slot.value?.toList) =
        (merged, .ok (some consumer)) ∧
      engine.PopsSlot listing code issued ⟨slot, some consumer⟩ popped merged := by
  have hheld : ∀ value ∈ engine.waiting ++ slot.value?.toList, value ∈ engine.values :=
    fun value hvalue => hvalues.mem_iff.2 (List.mem_append_left _ hvalue)
  have hgone : ∀ value ∈ engine.waiting ++ slot.value?.toList, value ∉ popped.values :=
    fun value hvalue hkept =>
      (List.nodup_append.1 (hvalues.nodup hbefore.distinct)).2.2 value hvalue value hkept rfl
  have hwithin : ∀ value ∈ engine.waiting ++ slot.value?.toList,
      value ∈ code.map Instruction.address := by
    intro value hvalue
    obtain ⟨next, hnext⟩ := hnext value (hbefore.held value (hheld value hvalue))
    obtain ⟨place, hplace, _⟩ := (hbefore.indexes.next?_eq_some_iff hcode).1 hnext
    exact List.mem_iff_getElem?.2 ⟨place, by rw [List.getElem?_map, hplace]⟩
  obtain ⟨links, phi, anchor, consumer, hgather, hphi, hanchor, hconsumer, hfree, hmerge⟩ :=
    mergeValues_eq_ok engine.cursor
      (fun hnil => hwaiting (List.append_eq_nil_iff.1 hnil).1)
      fun value hvalue => hbefore.exists_free_next hcode (hheld value hvalue)
        (hnext value (hbefore.held value (hheld value hvalue)))
  have htaken : (Popped.mk slot (some consumer)).taken { listing with
      links := links, phis := listing.phis.insert consumer phi } =
        engine.waiting ++ slot.value?.toList := by
    rw [Popped.taken]
    simp only [phiAt?_attach, Option.map_some, Option.getD_some]
    exact hphi
  refine ⟨_, consumer, hmerge, ?_, extends_attach links hfree,
    ⟨?_, engine.waiting, htaken, fun _ => hwaiting⟩, ?_,
    fun hnotes => hnotes.attach hbefore.indexes hcode hwithin hgather hfree, ?_⟩
  · apply haccounts.attach links hanchor hconsumer
    intro value hvalue
    rw [hphi] at hvalue
    exact ⟨hbefore.held value (hheld value hvalue), hgone value hvalue⟩
  · rintro other ⟨⟩
    rw [phiAt?_attach]
    rfl
  · rw [htaken]
    exact hvalues
  · rw [Popped.entries]
    simp only [phiAt?_attach]
    exact Listing.phiTable_insert_perm hfree links phi

/-- A pop fails on an empty branch only.  Otherwise it takes one slot. -/
theorem Accounts.pop (haccounts : engine.Accounts listing code issued) (hcode : Checked code)
    (hnext : ∀ value ∈ issued, ∃ next, listing.next? value = some next) :
    (engine.activeBranch?.bind Branch.top? = none ∧ engine.pop listing =
        (engine, listing, .error (.underflow engine.active (some engine.cursor)))) ∨
      ∃ slot popped merged, engine.pop listing = (popped, merged, .ok slot) ∧
        engine.PopsSlot listing code issued slot popped merged := by
  have hordered := haccounts.ordered
  have hpopped := hordered.pop listing
  rcases engine.pop_cases listing with
    hempty | ⟨slot, hslot, htops, heq⟩ | ⟨slot, values, hslot, hvalues, heq⟩
  · exact Or.inl hempty
  · right
    have hperm := hordered.values_dropTop_perm hslot
    have hwaiting : engine.waiting = [] := by
      rw [waiting, htops]
      rfl
    rw [hwaiting, List.nil_append] at hperm
    rw [heq] at hpopped
    exact ⟨_, _, _, heq, .lone (haccounts.of_values_perm hpopped hperm) hperm⟩
  · right
    have hperm := hordered.values_dropTop_perm hslot
    rw [← values_collect engine.dropTop] at hperm
    rw [heq] at hpopped
    have hafter := haccounts.of_values_perm hpopped hperm
    change values = (if engine.waiting.isEmpty then []
      else engine.waiting ++ slot.value?.toList) at hvalues
    by_cases hwaiting : engine.waiting = []
    · rw [hwaiting, List.isEmpty_nil, if_pos rfl] at hvalues
      rw [hvalues, mergeValues_nil] at heq
      rw [hwaiting, List.nil_append] at hperm
      exact ⟨_, _, _, heq, .lone hafter hperm⟩
    · rw [if_neg (by simpa using hwaiting)] at hvalues
      obtain ⟨merged, consumer, hmerge, hpopsSlot⟩ :=
        PopsSlot.merged hcode hnext haccounts hafter hwaiting hperm
      rw [hvalues, hmerge] at heq
      exact ⟨_, _, _, heq, hpopsSlot⟩

end Engine

end StackLift
