import StackLift.Proofs.Engine.Resume
import StackLift.Proofs.Lift.Draft
import StackLift.Proofs.Source.Labels

/-!
# Operands that are expressions

When the code of operands has been lifted, the alternatives of each operand are on
the stacks and their expressions wait.  Popping the operands attaches a phi set for
each choice among them.  The expressions that are then taken are the trees of the
operands.
-/

namespace StackLift

namespace Pending

variable {pending left : Pending}

/-- Keys that are distinct lead to the expression that was entered with the key. -/
theorem take_eq_of_perm (consumer : Address) {value : Address} {expr : Expr}
    (hdistinct : (pending.map Prod.fst).Nodup) (hperm : pending.Perm ((value, expr) :: left)) :
    ∃ others, take consumer value pending = .ok (expr, others) ∧ others.Perm left := by
  have hentry : (value, expr) ∈ pending := hperm.mem_iff.2 List.mem_cons_self
  obtain ⟨taken, others, htake, htaken⟩ :=
    take_of_mem consumer (List.mem_map_of_mem (f := Prod.fst) hentry)
  have hother : (value, taken) ∈ pending := htaken.mem_iff.2 List.mem_cons_self
  have heq : taken = expr :=
    congrArg Prod.snd (List.inj_on_of_nodup_map hdistinct hother hentry rfl)
  subst heq
  exact ⟨others, htake, (List.perm_cons _).1 (htaken.symm.trans hperm)⟩

theorem takeAlternatives_eq_of_perm (consumer : Address) (entries : List (Address × Expr))
    (hdistinct : (pending.map Prod.fst).Nodup)
    (hperm : pending.Perm (entries.map (fun entry => (entry.2.address, entry.2)) ++ left)) :
    ∃ others,
      takeAlternatives consumer (entries.map fun entry => ⟨entry.2.address, entry.1⟩) pending =
        .ok (entries, others) ∧ others.Perm left := by
  induction entries generalizing pending with
  | nil => exact ⟨pending, rfl, hperm⟩
  | cons entry rest ih =>
      obtain ⟨others, htake, hothers⟩ := take_eq_of_perm consumer hdistinct hperm
      have hkeys : (others.map Prod.fst).Nodup := by
        have hall := (hperm.trans (hothers.symm.cons _)).map Prod.fst
        exact (List.nodup_cons.1 (hall.nodup hdistinct)).2
      obtain ⟨final, hmore, hfinal⟩ := ih hkeys hothers
      refine ⟨final, ?_, hfinal⟩
      simp only [List.map_cons, takeAlternatives, htake, hmore]

end Pending

namespace Source

/-- The expressions that wait for an operand to be used. -/
def entries (source : Source) (start : Nat) : Pending :=
  (source.alternatives start).map fun entry => (entry.2.address, entry.2)

/-- The expressions that wait for several operands to be used. -/
def entriesAll : List Source → Nat → Pending
  | [], _ => []
  | source :: rest, start => source.entries start ++ entriesAll rest (start + source.size)

/-- What is popped for an operand. -/
def slot (source : Source) (start : Nat) : Popped where
  slot := .value (source.value start)
  merge := if source.isCond then some (.ofNat (start + source.size)) else none

/-- What is popped for several operands. -/
def slots : List Source → Nat → List Popped
  | [], _ => []
  | source :: rest, start => source.slot start :: slots rest (start + source.size)

/-- The expression that is taken for an operand is its tree. -/
theorem takeSlot_eq_tree {source : Source} {start : Nat} (consumer : Address)
    {listing : Listing} {pending left : Pending}
    (hphi : ∀ entry ∈ source.ownJoin start, listing.phiAt? entry.1 = some entry.2)
    (hdistinct : (pending.map Prod.fst).Nodup)
    (hperm : pending.Perm (source.entries start ++ left)) :
    ∃ others,
      Pending.takeSlot listing consumer (source.value start) (source.slot start).merge
        pending = .ok (source.tree start, others) ∧ others.Perm left := by
  cases source with
  | apply opcode operand args =>
      rw [entries, alternatives_apply, List.map_singleton, List.singleton_append] at hperm
      obtain ⟨others, htake, hothers⟩ := Pending.take_eq_of_perm consumer hdistinct hperm
      refine ⟨others, ?_, hothers⟩
      have htree : ((apply opcode operand args).active start).2 =
          (apply opcode operand args).tree start := by
        rw [active, tree]
      rw [htree] at htake
      exact htake
  | cond test yes no =>
      have hjoin := hphi (.ofNat (start + (cond test yes no).size), (cond test yes no).phi start)
        (List.mem_singleton_self _)
      obtain ⟨others, htake, hothers⟩ := Pending.takeAlternatives_eq_of_perm
        (.ofNat (start + (cond test yes no).size)) _ hdistinct hperm
      refine ⟨others, ?_, hothers⟩
      change Pending.takeMerge listing (.ofNat (start + (cond test yes no).size)) pending = _
      rw [Pending.takeMerge, hjoin, tree_cond]
      simp only [phi, htake]

theorem takeOperands_eq_trees (consumer : Address) {listing : Listing} (args : List Source)
    (start : Nat) {pending left : Pending}
    (hphis : ∀ entry ∈ joinsAll args start, listing.phiAt? entry.1 = some entry.2)
    (hdistinct : (pending.map Prod.fst).Nodup)
    (hperm : pending.Perm (entriesAll args start ++ left)) :
    ∃ others,
      Pending.takeOperands listing consumer (slots args start) pending =
        .ok ((values args start, trees args start), others) ∧ others.Perm left := by
  induction args generalizing pending start with
  | nil =>
      refine ⟨pending, ?_, hperm⟩
      rw [slots, Pending.takeOperands, values, trees]
  | cons arg rest ih =>
      rw [joinsAll] at hphis
      rw [entriesAll, List.append_assoc] at hperm
      obtain ⟨others, htake, hothers⟩ := takeSlot_eq_tree consumer
        (fun entry hentry => hphis entry
          (List.mem_append_left _ (List.mem_append_right _ hentry))) hdistinct hperm
      have hkeys : (others.map Prod.fst).Nodup := by
        have hall := (hperm.trans (hothers.symm.append_left _)).map Prod.fst
        have hnodup := hall.nodup hdistinct
        rw [List.map_append] at hnodup
        exact (List.nodup_append.1 hnodup).2.1
      obtain ⟨final, hmore, hfinal⟩ := ih (start + arg.size)
        (fun entry hentry => hphis entry (List.mem_append_right _ hentry)) hkeys hothers
      refine ⟨final, ?_, hfinal⟩
      rw [slots, values, trees, slot, Pending.takeOperands]
      rw [slot] at htake
      simp only [htake, hmore]

end Source

/-! ## What is taken down on the way -/

/-- What lifting code from an offset on takes down: producers and phi sets.  Nothing
else changes but labels behind instructions that end a block. -/
structure Listing.Follows (later earlier : Listing) (code : List Instruction) (start : Nat)
    (notes : List (Address × List Address)) (joins : List (Address × Phi)) : Prop where
  links : later.LinksAfterEnds code
  kept : ∀ address, address.toNat < start →
    later.producersOf address = earlier.producersOf address
  noted : later.Noted notes
  phis : ∀ consumer phi, later.phiAt? consumer = some phi ↔
    (consumer, phi) ∈ joins ∨ earlier.phiAt? consumer = some phi

namespace Listing.Follows

variable {last middle first : Listing} {code : List Instruction}

theorem refl (hlinks : first.LinksAfterEnds code) (start : Nat) :
    first.Follows first code start [] [] :=
  ⟨hlinks, fun _ _ => rfl, by simp [Listing.Noted], by simp⟩

theorem trans {start between : Nat} {notes more : List (Address × List Address)}
    {joins others : List (Address × Phi)}
    (hfirst : middle.Follows first code start notes joins)
    (hsecond : last.Follows middle code between more others) (hle : start ≤ between)
    (hnotes : ∀ entry ∈ notes, entry.1.toNat < between) :
    last.Follows first code start (notes ++ more) (joins ++ others) where
  links := hsecond.links
  kept := by
    intro address haddress
    rw [hsecond.kept address (Nat.lt_of_lt_of_le haddress hle), hfirst.kept address haddress]
  noted := by
    intro entry hentry
    rcases List.mem_append.1 hentry with hentry | hentry
    · rw [hsecond.kept _ (hnotes entry hentry)]
      exact hfirst.noted entry hentry
    · exact hsecond.noted entry hentry
  phis := by
    intro consumer phi
    rw [hsecond.phis, hfirst.phis, List.mem_append]
    tauto

theorem congr {start : Nat} {notes some : List (Address × List Address)}
    {joins others : List (Address × Phi)}
    (hfollows : last.Follows first code start notes joins)
    (hnotes : ∀ entry ∈ some, entry ∈ notes)
    (hjoins : ∀ entry, entry ∈ joins ↔ entry ∈ others) :
    last.Follows first code start some others :=
  ⟨hfollows.links, hfollows.kept, fun entry hentry => hfollows.noted entry (hnotes entry hentry),
    fun consumer phi => by rw [hfollows.phis, hjoins]⟩

/-- Taking down the producers of an instruction. -/
theorem setProducers (hlinks : first.LinksAfterEnds code) {offset : Nat}
    (hoffset : offset ≤ Address.last.toNat) (producers : List Address) :
    Follows { first with producers := first.producers.insert (.ofNat offset) producers } first
      code offset [(.ofNat offset, producers)] [] where
  links := hlinks
  kept := by
    intro address haddress
    have hne : Address.ofNat offset ≠ address := by
      rintro rfl
      rw [Address.toNat_ofNat hoffset] at haddress
      exact Nat.lt_irrefl _ haddress
    rw [producersOf, producersOf, Std.TreeMap.getD_insert, if_neg (by simpa using hne)]
  noted := by
    intro entry hentry
    rw [List.mem_singleton.1 hentry, producersOf, Std.TreeMap.getD_insert_self]
  phis := by
    intro consumer phi
    simp only [List.not_mem_nil, false_or]
    rfl

theorem exists_setProducers (hcode : Checked code) (hindex : first.Indexes code)
    (hlinks : first.LinksAfterEnds code) {instruction : Instruction}
    (hinstruction : instruction ∈ code) {offset : Nat}
    (haddress : instruction.address = .ofNat offset) (hoffset : offset ≤ Address.last.toNat)
    (producers : List Address) :
    ∃ noted : Listing, first.setProducers instruction.address producers = .ok noted ∧
      noted.Follows first code offset [(instruction.address, producers)] [] := by
  have hcontains : first.contains instruction.address = true := by
    rw [hindex.contains_iff hcode]
    exact List.mem_map_of_mem hinstruction
  refine ⟨_, setProducers_eq_ok_iff.2 ⟨hcontains, rfl⟩, ?_⟩
  rw [haddress]
  exact setProducers hlinks hoffset producers

/-- Attaching a phi set. -/
theorem attach {links : Std.TreeMap Address (List Address)}
    (hlinks : ({ first with links := links } : Listing).LinksAfterEnds code)
    {consumer : Address} (hfree : first.phiAt? consumer = none) (phi : Phi) (start : Nat) :
    Follows { first with links := links, phis := first.phis.insert consumer phi } first
      code start [] [(consumer, phi)] where
  links := hlinks
  kept := fun _ _ => rfl
  noted := by simp [Listing.Noted]
  phis := by
    intro other attached
    rw [phiAt?, Std.TreeMap.getElem?_insert]
    by_cases heq : consumer = other
    · subst heq
      rw [if_pos Std.ReflCmp.compare_self, hfree]
      simp [eq_comm]
    · rw [if_neg (by simpa using heq)]
      simp [Ne.symm heq, phiAt?]

end Listing.Follows

namespace Source

variable {code before after : List Instruction} {first start : Nat}

theorem closedValues_eq_nil_iff (source : Source) (start : Nat) :
    source.closedValues start = [] ↔ source.isCond = false := by
  cases source with
  | apply opcode operand args => simp [closedValues, closed, isCond]
  | cond test yes no => simp [closedValues, closed, isCond]

/-- Nothing is attached yet to the instruction behind a choice that waits. -/
theorem phiAt?_behind {source : Source} {engine : Engine} {listing : Listing}
    {visited rest : List Instruction} {instruction : Instruction} (hlaid : Laid code first)
    (hsite : Site code first before (source.code start) after start) (hafter : after ≠ [])
    (htracks : engine.Tracks listing code visited)
    (hsplit : code = visited ++ instruction :: rest)
    (hheld : ∀ held ∈ source.closedValues start ++ [source.value start],
      held ∈ engine.values) :
    listing.phiAt? (.ofNat (start + source.size)) = none := by
  have hstop := hsite.stop_le
  have hlow := hsite.start_le
  have hpos := source.size_pos
  have hlength : 0 < after.length := List.length_pos_iff.2 hafter
  rw [length_code] at hstop
  obtain ⟨entry, hentry, heq⟩ := source.exists_last_alternative start
  have hlast : Address.ofNat (start + source.size - 1) ∈ engine.values := by
    apply hheld
    rw [closedValues, value, ← heq]
    rw [alternatives] at hentry
    rcases List.mem_append.1 hentry with hentry | hentry
    · exact List.mem_append_left _ (List.mem_map_of_mem hentry)
    · rw [List.mem_singleton.1 hentry]
      exact List.mem_append_right _ (List.mem_singleton_self _)
  obtain ⟨next, hnext, _, hfree⟩ :=
    htracks.exists_free_next hlaid.checked hsplit hlast
  have hbehind := hlaid.next? htracks.indexes
    (show first ≤ start + source.size - 1 by omega)
    (show start + source.size - 1 + 1 < first + code.length by omega)
  rw [show start + source.size - 1 + 1 = start + source.size by omega, hnext,
    Option.some.injEq] at hbehind
  rwa [← hbehind]

/-- Popping an operand takes its alternatives back and attaches its phi set. -/
theorem pop_operand {source : Source} {base : Engine} {horizon : Nat} {cursor : Address}
    {arms : List Branch} {nextId : BranchId} {listing : Listing}
    {visited rest : List Instruction} {instruction : Instruction} (hlaid : Laid code first)
    (hfits : source.fits = true)
    (hsite : Site code first before (source.code start) after start) (hafter : after ≠ [])
    (hready : base.Ready start horizon) (hstart : start + source.size ≤ cursor.toNat)
    (hhorizon : cursor.toNat < horizon)
    (harms : Engine.Arms base.active (source.closedValues start) (start + source.size) arms)
    (htracks : ((base.load (source.value start) arms).moveTo cursor nextId).Tracks listing
      code visited)
    (hsplit : code = visited ++ instruction :: rest)
    (hnoted : listing.Noted (source.notes start))
    (hlinks : listing.LinksAfterEnds code) :
    ∃ merged,
      ((base.load (source.value start) arms).moveTo cursor nextId).pop listing =
        (base.moveTo cursor nextId, merged, .ok (source.slot start)) ∧
      (base.moveTo cursor nextId).Tracks merged code visited ∧
      ∀ offset, merged.Follows listing code offset [] (source.ownJoin start) := by
  have hpop := Engine.pop_load hready htracks.ordered (harms.mono hstart) (by omega) hhorizon
    listing
  have hmerge : ∃ merged merge,
      Engine.mergeValues cursor listing (if source.closedValues start = [] then []
        else source.closedValues start ++ [source.value start]) = (merged, .ok merge) ∧
      source.slot start = ⟨.value (source.value start), merge⟩ ∧
      ∀ offset, merged.Follows listing code offset [] (source.ownJoin start) := by
    cases hcond : source.isCond with
    | false =>
        rw [if_pos ((source.closedValues_eq_nil_iff start).2 hcond), Engine.mergeValues_nil]
        refine ⟨listing, none, rfl, ?_, fun offset => ?_⟩
        · rw [slot, hcond]
          rfl
        · rw [ownJoin, hcond]
          exact .refl hlinks offset
    | true =>
        have hfree := phiAt?_behind hlaid hsite hafter htracks hsplit fun held hheld =>
          Engine.mem_values_load hready harms hheld
        obtain ⟨links, hmerge, hmore⟩ := mergeValues_cond cursor hlaid htracks.indexes hfits
          hsite hafter hcond hnoted hlinks hfree
        rw [if_neg fun hnil => by
          rw [closedValues_eq_nil_iff, hcond] at hnil
          cases hnil]
        refine ⟨_, _, hmerge, ?_, fun offset => ?_⟩
        · rw [slot, hcond]
          rfl
        · rw [ownJoin, hcond]
          exact .attach hmore hfree _ offset
  obtain ⟨merged, merge, heq, hslot, hfollows⟩ := hmerge
  have hdone : ((base.load (source.value start) arms).moveTo cursor nextId).pop listing =
      (base.moveTo cursor nextId, merged, .ok (source.slot start)) := by
    rw [hpop, heq, hslot]
    rfl
  refine ⟨merged, hdone, ?_, hfollows⟩
  rcases htracks.pop hlaid.checked hsplit with herror | ⟨_, _, _, hother, hpopsSlots⟩
  · rw [hdone] at herror
    have hresult := congrArg (fun result => result.2.2) herror
    cases hresult
  · rw [hdone, Prod.mk.injEq, Prod.mk.injEq] at hother
    rw [hother.1, hother.2.1]
    exact hpopsSlots.tracks

end Source

end StackLift
