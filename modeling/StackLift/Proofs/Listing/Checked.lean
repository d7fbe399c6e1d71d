import Mathlib.Order.Defs.LinearOrder
import Mathlib.Data.List.Nodup
import StackLift.Flow.Listing

/-!
# Listings of checked code

The contract for methods is stated here of the whole instruction list, and
`Method.validate` is shown to accept exactly the methods that keep it.  In the
listing of such a method every look-up can be read off the list: an address
leads to the one instruction that has it, and neighbours in the listing are
neighbours in the list.
-/

namespace StackLift

namespace Address

instance : LinearOrder Address where
  le_refl _ := Std.le_refl _
  le_trans _ _ _ hleft hright := Std.le_trans hleft hright
  lt_iff_le_not_ge left right := Std.LawfulOrderLT.lt_iff left right
  le_antisymm _ _ hleft hright := Std.le_antisymm hleft hright
  le_total _ _ := Std.le_total
  toDecidableLE _ _ := inferInstance
  toDecidableEq := inferInstance
  toDecidableLT _ _ := inferInstance
  min left right := if left ≤ right then left else right
  min_def _ _ := rfl
  max_def := max_def
  compare := compare
  compare_eq_compareOfLessAndEq left right := by
    have heq : left = right ↔ left.offset = right.offset := by
      cases left
      cases right
      simp
    change compareOfLessAndEq left.offset right.offset = _
    simp only [compareOfLessAndEq, heq]
    rfl

theorem le_last (address : Address) : address ≤ last :=
  le_iff_toNat_le.2 (Nat.le_of_lt_succ address.offset.toNat_lt)

end Address

/-- The contract for methods, stated of all the instructions at once. -/
structure Checked (code : List Instruction) : Prop where
  increasing : code.Pairwise fun earlier later => earlier.address < later.address
  unreserved : ∀ instruction ∈ code, instruction.address ≠ Address.last
  fitting : ∀ instruction ∈ code,
    instruction.opcode.accepts instruction.operand = true
  landing : ∀ jump ∈ code, ∀ target, jump.jumpTarget? = some target →
    target ∈ code.map Instruction.address

namespace Method

theorem faultAt?_eq_none_iff {previous : Option Address}
    {instruction : Instruction} :
    faultAt? previous instruction = none ↔
      instruction.address ≠ Address.last ∧
        (∀ before ∈ previous, before < instruction.address) ∧
        instruction.opcode.accepts instruction.operand = true := by
  by_cases hlast : instruction.address = Address.last
  · simp [faultAt?, hlast]
  cases previous with
  | none =>
      cases haccepts : instruction.opcode.accepts instruction.operand <;>
        simp [faultAt?, hlast, haccepts]
  | some before =>
      by_cases hle : instruction.address ≤ before
      · simp [faultAt?, Option.filter_some, hlast, hle, not_lt.2 hle]
      · cases haccepts : instruction.opcode.accepts instruction.operand <;>
          simp [faultAt?, Option.filter_some, hlast, hle, haccepts, not_le.1 hle]

theorem firstFault?_eq_none_iff {previous : Option Address}
    {code : List Instruction} :
    firstFault? previous code = none ↔
      (∀ before ∈ previous, ∀ instruction ∈ code, before < instruction.address) ∧
        code.Pairwise (fun earlier later => earlier.address < later.address) ∧
        (∀ instruction ∈ code, instruction.address ≠ Address.last) ∧
        ∀ instruction ∈ code,
          instruction.opcode.accepts instruction.operand = true := by
  induction code generalizing previous with
  | nil => simp [firstFault?]
  | cons instruction rest ih =>
      have hsplit : firstFault? previous (instruction :: rest) = none ↔
          faultAt? previous instruction = none ∧
            firstFault? (some instruction.address) rest = none := by
        rw [firstFault?]
        cases faultAt? previous instruction <;> simp
      rw [hsplit, faultAt?_eq_none_iff, ih]
      simp only [Option.mem_def, Option.some.injEq, forall_eq', List.mem_cons,
        forall_eq_or_imp, List.pairwise_cons]
      constructor
      · rintro ⟨⟨hlast, hbefore, haccepts⟩, habove, hrest, hlasts, hall⟩
        refine ⟨?_, ⟨habove, hrest⟩, ⟨hlast, hlasts⟩, haccepts, hall⟩
        intro before hprevious
        have hfirst := hbefore before hprevious
        exact ⟨hfirst, fun later hlater => lt_trans hfirst (habove later hlater)⟩
      · rintro ⟨hbefore, ⟨habove, hrest⟩, ⟨hlast, hlasts⟩, haccepts, hall⟩
        exact ⟨⟨hlast, fun before hprevious => (hbefore before hprevious).1,
          haccepts⟩, habove, hrest, hlasts, hall⟩

theorem strayJump?_eq_none_iff {code : List Instruction} :
    strayJump? code = none ↔
      ∀ jump ∈ code, ∀ target, jump.jumpTarget? = some target →
        target ∈ code.map Instruction.address := by
  simp only [strayJump?, List.findSome?_eq_none_iff]
  refine forall₂_congr fun jump _ => ?_
  cases jump.jumpTarget? with
  | none => simp
  | some target => simp

/-- A method is accepted exactly when it keeps the contract. -/
theorem validate_eq_ok_iff {method : Method} :
    method.validate = .ok () ↔ Checked method.instructions.toList := by
  have hparts : method.validate = .ok () ↔
      firstFault? none method.instructions.toList = none ∧
        strayJump? method.instructions.toList = none := by
    rw [validate]
    cases firstFault? none method.instructions.toList with
    | some fault => simp
    | none =>
        cases strayJump? method.instructions.toList <;> simp
  rw [hparts, firstFault?_eq_none_iff, strayJump?_eq_none_iff]
  constructor
  · rintro ⟨⟨_, hincreasing, hlast, haccepts⟩, hlanding⟩
    exact ⟨hincreasing, hlast, haccepts, hlanding⟩
  · intro hchecked
    exact ⟨⟨by simp, hchecked.increasing, hchecked.unreserved, hchecked.fitting⟩,
      hchecked.landing⟩

end Method

namespace Checked

variable {code : List Instruction}

theorem lt_last (hcode : Checked code) {instruction : Instruction}
    (hmem : instruction ∈ code) : instruction.address < Address.last :=
  lt_of_le_of_ne (Address.le_last _) (hcode.unreserved instruction hmem)

theorem nodup_address (hcode : Checked code) :
    (code.map Instruction.address).Nodup := by
  rw [List.Nodup, List.pairwise_map]
  exact hcode.increasing.imp fun hlt => ne_of_lt hlt

theorem eq_of_address_eq (hcode : Checked code) {left right : Instruction}
    (hleft : left ∈ code) (hright : right ∈ code)
    (haddress : left.address = right.address) : left = right :=
  List.inj_on_of_nodup_map hcode.nodup_address hleft hright haddress

/-- Code can be split at an instruction in one way only. -/
theorem split_unique (hcode : Checked code) {before after other rest : List Instruction}
    {instruction same : Instruction} (hsplit : code = before ++ instruction :: after)
    (hother : code = other ++ same :: rest) (haddress : instruction.address = same.address) :
    before = other ∧ instruction = same ∧ after = rest := by
  have hplace : (code.map Instruction.address)[before.length]? = some instruction.address := by
    simp [hsplit]
  have hsame : (code.map Instruction.address)[other.length]? = some instruction.address := by
    simp [hother, haddress]
  have hlength : before.length = other.length := by
    obtain ⟨hlt, _⟩ := List.getElem?_eq_some_iff.1 hplace
    exact (List.getElem?_inj hlt hcode.nodup_address).1 (hplace.trans hsame.symm)
  rw [hsplit] at hother
  obtain ⟨hbefore, hcons⟩ := List.append_inj hother hlength
  exact ⟨hbefore, List.cons.inj hcons⟩

end Checked

namespace Listing

/-- The index leads from an address to the place of its instruction. -/
theorem getElem?_indexOf_eq_some_iff {code : List Instruction}
    (hcode : Checked code) {address : Address} {place : Nat} :
    (indexOf code)[address]? = some place ↔
      (code[place]?).map Instruction.address = some address := by
  have hmem : ∀ {key : Address} {value : Nat},
      (key, value) ∈ code.zipIdx.map (fun entry => (entry.1.address, entry.2)) ↔
        (code[value]?).map Instruction.address = some key := by
    intro key value
    simp only [List.mem_map, Prod.exists, Prod.mk.injEq, Option.map_eq_some_iff]
    constructor
    · rintro ⟨instruction, index, hentry, rfl, rfl⟩
      exact ⟨instruction, List.mk_mem_zipIdx_iff_getElem?.1 hentry, rfl⟩
    · rintro ⟨instruction, hinstruction, rfl⟩
      exact ⟨instruction, value, List.mk_mem_zipIdx_iff_getElem?.2 hinstruction,
        rfl, rfl⟩
  have hkeys : (code.zipIdx.map fun entry => (entry.1.address, entry.2)).map Prod.fst =
      code.map Instruction.address := by
    rw [List.map_map]
    change code.zipIdx.map (Instruction.address ∘ Prod.fst) = _
    rw [← List.map_map, List.zipIdx_map_fst]
  have hdistinct : (code.zipIdx.map fun entry => (entry.1.address, entry.2)).Pairwise
      fun left right => ¬ compare left.1 right.1 = .eq := by
    have hnodup := hcode.nodup_address
    rw [← hkeys, List.Nodup, List.pairwise_map] at hnodup
    exact hnodup.imp fun hne heq => hne (Std.LawfulEqCmp.compare_eq_iff_eq.1 heq)
  have hlookup : ∀ {key : Address} {value : Nat},
      (code[value]?).map Instruction.address = some key →
        (indexOf code)[key]? = some value := by
    intro key value hvalue
    exact Std.TreeMap.getElem?_ofList_of_mem Std.ReflCmp.compare_self hdistinct
      (hmem.2 hvalue)
  refine ⟨fun hplace => ?_, hlookup⟩
  by_cases haddress : address ∈ code.map Instruction.address
  · obtain ⟨other, hother⟩ := List.getElem?_of_mem haddress
    rw [List.getElem?_map] at hother
    rw [hlookup hother, Option.some.injEq] at hplace
    rwa [hplace] at hother
  · have hnone : (indexOf code)[address]? = none := by
      apply Std.TreeMap.getElem?_ofList_of_contains_eq_false
      rw [hkeys]
      simpa using haddress
    rw [hnone] at hplace
    cases hplace

/-- The listing indexes the given instructions, whatever else it has taken down. -/
structure Indexes (listing : Listing) (code : List Instruction) : Prop where
  instructions_eq : listing.instructions.toList = code
  index_eq : listing.index = indexOf code
  incoming_eq : listing.incoming = incomingOf code

theorem ofMethod_eq_ok_iff {method : Method} {listing : Listing} :
    ofMethod method = .ok listing ↔
      Checked method.instructions.toList ∧
        listing = ⟨method.instructions, indexOf method.instructions.toList,
          incomingOf method.instructions.toList, ∅, ∅, ∅⟩ := by
  rw [← Method.validate_eq_ok_iff, ofMethod]
  cases method.validate with
  | error fault => simp
  | ok _ => simp [eq_comm]

theorem indexes_of_ofMethod {method : Method} {listing : Listing}
    (hlisting : ofMethod method = .ok listing) :
    listing.Indexes method.instructions.toList := by
  rw [(ofMethod_eq_ok_iff.1 hlisting).2]
  exact ⟨rfl, rfl, rfl⟩

theorem phis_of_ofMethod {method : Method} {listing : Listing}
    (hlisting : ofMethod method = .ok listing) : listing.phis = ∅ := by
  rw [(ofMethod_eq_ok_iff.1 hlisting).2]

namespace Indexes

variable {listing : Listing} {code : List Instruction}

theorem getElem?_index (hindex : listing.Indexes code) (hcode : Checked code)
    {address : Address} {place : Nat} :
    listing.index[address]? = some place ↔
      (code[place]?).map Instruction.address = some address := by
  rw [hindex.index_eq]
  exact getElem?_indexOf_eq_some_iff hcode

theorem getElem?_instructions (hindex : listing.Indexes code) (place : Nat) :
    listing.instructions[place]? = code[place]? := by
  rw [← Array.getElem?_toList, hindex.instructions_eq]

theorem contains_iff (hindex : listing.Indexes code) (hcode : Checked code)
    {address : Address} :
    listing.contains address = true ↔ address ∈ code.map Instruction.address := by
  rw [contains, Std.TreeMap.contains_eq_isSome_getElem?, Option.isSome_iff_exists,
    List.mem_iff_getElem?]
  refine exists_congr fun place => ?_
  rw [hindex.getElem?_index hcode, List.getElem?_map]

theorem instruction?_eq_some_iff (hindex : listing.Indexes code)
    (hcode : Checked code) {address : Address} {instruction : Instruction} :
    listing.instruction? address = some instruction ↔
      instruction ∈ code ∧ instruction.address = address := by
  rw [instruction?, Option.bind_eq_some_iff, List.mem_iff_getElem?]
  constructor
  · rintro ⟨place, hplace, hinstruction⟩
    rw [hindex.getElem?_instructions] at hinstruction
    rw [hindex.getElem?_index hcode, hinstruction] at hplace
    exact ⟨⟨place, hinstruction⟩, Option.some.inj hplace⟩
  · rintro ⟨⟨place, hinstruction⟩, haddress⟩
    refine ⟨place, ?_, ?_⟩
    · rw [hindex.getElem?_index hcode, hinstruction, Option.map_some, haddress]
    · rw [hindex.getElem?_instructions, hinstruction]

/-- The instruction after another one is the next of the list. -/
theorem next?_eq_some_iff (hindex : listing.Indexes code) (hcode : Checked code)
    {address next : Address} :
    listing.next? address = some next ↔
      ∃ place : Nat, (code[place]?).map Instruction.address = some address ∧
        (code[place + 1]?).map Instruction.address = some next := by
  rw [next?, Option.bind_eq_some_iff]
  refine exists_congr fun place => ?_
  rw [hindex.getElem?_index hcode, hindex.getElem?_instructions]

theorem exists_split_of_next? (hindex : listing.Indexes code) (hcode : Checked code)
    {address next : Address} (hnext : listing.next? address = some next) :
    ∃ before instruction following after, code = before ++ instruction :: following :: after ∧
      instruction.address = address ∧ following.address = next := by
  obtain ⟨place, hplace, hfollowing⟩ := (hindex.next?_eq_some_iff hcode).1 hnext
  obtain ⟨instruction, hinstruction, haddress⟩ := Option.map_eq_some_iff.1 hplace
  obtain ⟨following, hgetFollowing, hnextAddress⟩ := Option.map_eq_some_iff.1 hfollowing
  obtain ⟨hlt, rfl⟩ := List.getElem?_eq_some_iff.1 hinstruction
  obtain ⟨hnextLt, rfl⟩ := List.getElem?_eq_some_iff.1 hgetFollowing
  refine ⟨code.take place, _, _, code.drop (place + 2), ?_, haddress, hnextAddress⟩
  rw [← List.drop_eq_getElem_cons hnextLt, ← List.drop_eq_getElem_cons hlt,
    List.take_append_drop]

/-- What comes next depends on the instructions alone. -/
theorem next?_eq (hindex : listing.Indexes code) {other : Listing}
    (hother : other.Indexes code) : listing.next? = other.next? := by
  funext address
  rw [next?, next?, hindex.index_eq, hother.index_eq]
  simp only [hindex.getElem?_instructions, hother.getElem?_instructions]

theorem eq_of_next?_eq (hindex : listing.Indexes code) (hcode : Checked code)
    {left right next : Address} (hleft : listing.next? left = some next)
    (hright : listing.next? right = some next) : left = right := by
  obtain ⟨leftPlace, hleft, hleftNext⟩ := (hindex.next?_eq_some_iff hcode).1 hleft
  obtain ⟨rightPlace, hright, hrightNext⟩ := (hindex.next?_eq_some_iff hcode).1 hright
  rw [← hindex.getElem?_index hcode] at hleftNext hrightNext
  have hplace : leftPlace = rightPlace := by
    rw [hleftNext] at hrightNext
    exact Nat.succ.inj (Option.some.inj hrightNext)
  rw [hplace, hright] at hleft
  exact (Option.some.inj hleft).symm

theorem contains_of_next? (hindex : listing.Indexes code) (hcode : Checked code)
    {address next : Address} (hnext : listing.next? address = some next) :
    listing.contains next = true := by
  obtain ⟨place, _, hplace⟩ := (hindex.next?_eq_some_iff hcode).1 hnext
  rw [hindex.contains_iff hcode, List.mem_iff_getElem?]
  exact ⟨place + 1, by rw [List.getElem?_map, hplace]⟩

/-- Every instruction but the last has one that follows it. -/
theorem exists_next?_of_mem (hindex : listing.Indexes code) (hcode : Checked code)
    {visited rest : List Instruction} {instruction : Instruction}
    (hsplit : code = visited ++ instruction :: rest) {address : Address}
    (haddress : address ∈ visited.map Instruction.address) :
    ∃ next, listing.next? address = some next := by
  obtain ⟨place, hplace⟩ := List.getElem?_of_mem haddress
  have hbound : place < visited.length := by
    have hlt := (List.getElem?_eq_some_iff.1 hplace).1
    simpa using hlt
  have hnext : place + 1 < code.length := by
    rw [hsplit, List.length_append, List.length_cons]
    omega
  refine ⟨code[place + 1].address, (hindex.next?_eq_some_iff hcode).2 ⟨place, ?_, ?_⟩⟩
  · rw [hsplit, List.getElem?_append_left hbound, ← List.getElem?_map]
    exact hplace
  · rw [List.getElem?_eq_getElem hnext, Option.map_some]

/-- What follows a visited instruction is visited as well or is the next to visit. -/
theorem next?_le (hindex : listing.Indexes code) (hcode : Checked code)
    {visited rest : List Instruction} {instruction : Instruction}
    (hsplit : code = visited ++ instruction :: rest) {address next : Address}
    (haddress : address ∈ visited.map Instruction.address)
    (hnext : listing.next? address = some next) : next ≤ instruction.address := by
  obtain ⟨place, hplace, hnextPlace⟩ := (hindex.next?_eq_some_iff hcode).1 hnext
  obtain ⟨found, hfound⟩ := List.getElem?_of_mem haddress
  have hbound : found < visited.length := by
    simpa using (List.getElem?_eq_some_iff.1 hfound).1
  have hsame : place = found := by
    rw [← List.getElem?_map] at hplace
    obtain ⟨hlt, _⟩ := List.getElem?_eq_some_iff.1 hplace
    refine (List.getElem?_inj hlt hcode.nodup_address).1 (hplace.trans ?_)
    rw [List.getElem?_map, hsplit, List.getElem?_append_left hbound, ← List.getElem?_map, hfound]
  obtain ⟨later, hlater, rfl⟩ := Option.map_eq_some_iff.1 hnextPlace
  obtain ⟨hlt, rfl⟩ := List.getElem?_eq_some_iff.1 hlater
  have hat : code[visited.length]? = some instruction := by simp [hsplit]
  obtain ⟨hatLt, hat⟩ := List.getElem?_eq_some_iff.1 hat
  rcases Nat.eq_or_lt_of_le (show place + 1 ≤ visited.length by omega) with heq | hlt
  · simp only [heq, hat, le_refl]
  · rw [← hat]
    exact le_of_lt (List.pairwise_iff_getElem.1 hcode.increasing _ _ _ hatLt hlt)

/-- The jumps into an address are the instructions that have it as target. -/
theorem jumpsTo_eq (hindex : listing.Indexes code) (target : Address) :
    listing.jumpsTo target =
      (code.filter fun jump => jump.jumpTarget? = some target).map Instruction.address := by
  rw [Listing.jumpsTo, hindex.incoming_eq]
  clear hindex
  induction code with
  | nil => rfl
  | cons jump rest ih =>
      rw [Listing.incomingOf, List.foldr_cons, ← Listing.incomingOf]
      cases hjump : jump.jumpTarget? with
      | none =>
          rw [List.filter_cons_of_neg (by simp [hjump])]
          exact ih
      | some other =>
          simp only [Std.TreeMap.getD_insert, Std.LawfulEqCmp.compare_eq_iff_eq]
          by_cases heq : other = target
          · rw [if_pos heq, List.filter_cons_of_pos (by simp [hjump, heq]), List.map_cons,
              heq, ih]
          · rw [if_neg heq, List.filter_cons_of_neg (by simp [hjump, heq])]
            exact ih

end Indexes

end Listing

end StackLift
