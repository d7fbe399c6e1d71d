import Mathlib.Data.List.Sort
import Mathlib.Order.Bounds.Basic
import StackLift.Proofs.Listing.Checked

/-!
# What a listing answers

A method can be searched by bisection, and its listing looks addresses up in an index.
Both find the same instructions.  What precedes and what follows an address in the
listing are its neighbours among all addresses of instructions, however far apart the
addresses lie, and the jumps into an address come in the order of their addresses.
-/

namespace StackLift

namespace Checked

variable {code : List Instruction}

theorem lt_iff_of_getElem? (hcode : Checked code) {left right : Address} {place other : Nat}
    (hleft : (code[place]?).map Instruction.address = some left)
    (hright : (code[other]?).map Instruction.address = some right) :
    left < right ↔ place < other := by
  rw [← List.getElem?_map] at hleft hright
  obtain ⟨hplace, rfl⟩ := List.getElem?_eq_some_iff.1 hleft
  obtain ⟨hother, rfl⟩ := List.getElem?_eq_some_iff.1 hright
  have hsorted : (code.map Instruction.address).SortedLT :=
    (List.pairwise_map.2 hcode.increasing).sortedLT
  exact hsorted.getElem_lt_getElem_iff

theorem lt_length_of_getElem? {address : Address} {place : Nat}
    (hplace : (code[place]?).map Instruction.address = some address) : place < code.length := by
  obtain ⟨_, hat, _⟩ := Option.map_eq_some_iff.1 hplace
  exact (List.getElem?_eq_some_iff.1 hat).1

theorem getElem?_map_address {place : Nat} (hlt : place < code.length) :
    (code[place]?).map Instruction.address = some (code[place]).address := by
  rw [List.getElem?_eq_getElem hlt, Option.map_some]

theorem mem_map_address_iff {address : Address} :
    address ∈ code.map Instruction.address ↔
      ∃ place : Nat, (code[place]?).map Instruction.address = some address := by
  simp only [List.mem_iff_getElem?, List.getElem?_map]

/-- No address lies between those of neighbouring instructions. -/
theorem le_of_lt_next (hcode : Checked code) {address next other : Address} {place : Nat}
    (hplace : (code[place]?).map Instruction.address = some address)
    (hnext : (code[place + 1]?).map Instruction.address = some next)
    (hother : other ∈ code.map Instruction.address) (hlt : other < next) : other ≤ address := by
  obtain ⟨found, hfound⟩ := mem_map_address_iff.1 hother
  have hbefore : found < place + 1 := (hcode.lt_iff_of_getElem? hfound hnext).1 hlt
  rw [← not_lt, hcode.lt_iff_of_getElem? hplace hfound]
  exact Nat.not_lt.2 (Nat.le_of_lt_succ hbefore)

end Checked

/-! ## Bisection -/

namespace Method

variable {instructions : Array Instruction} {method : Method}

/-- Bisection ends at the place of an address, if that lies in the range searched. -/
theorem bisect_eq (hcode : Checked instructions.toList) {address : Address}
    {place low size : Nat}
    (hplace : (instructions.toList[place]?).map Instruction.address = some address)
    (hlow : low ≤ place) (hhigh : place < low + size)
    (hsize : low + size ≤ instructions.size) :
    bisect instructions address low size = place := by
  fun_induction bisect instructions address low size with
  | case1 low size hsmall => omega
  | case2 low size hsmall middle above ih =>
      have hmiddle : middle < instructions.toList.length := by
        rw [Array.length_toList]
        omega
      have habove : above = true ↔ place < middle := by
        rw [← hcode.lt_iff_of_getElem? hplace (Checked.getElem?_map_address hmiddle)]
        simp [above, ← Array.getElem?_toList, List.getElem?_eq_getElem hmiddle]
      by_cases hbefore : place < middle
      · simp only [habove.2 hbefore, dite_true, if_true] at ih ⊢
        exact ih hlow (by omega) (by omega)
      · simp only [Bool.eq_false_iff.2 (mt habove.1 hbefore), Bool.false_eq_true, dite_false,
          if_false] at ih ⊢
        exact ih (by omega) (by omega) (by omega)

theorem position?_eq_some_iff (hcode : Checked method.instructions.toList)
    {address : Address} {place : Nat} :
    method.position? address = some place ↔
      (method.instructions.toList[place]?).map Instruction.address = some address := by
  constructor
  · intro hposition
    simp only [position?] at hposition
    split at hposition
    · next instruction hat =>
      split at hposition
      · next haddress =>
        cases hposition
        rw [Array.getElem?_toList, hat, Option.map_some, haddress]
      · cases hposition
    · cases hposition
  · intro hplace
    obtain ⟨instruction, hat, haddress⟩ := Option.map_eq_some_iff.1 hplace
    have hlt := Checked.lt_length_of_getElem? hplace
    rw [Array.length_toList] at hlt
    have hbisect := bisect_eq hcode hplace (Nat.zero_le _) (by omega) (Nat.zero_add _).le
    rw [Array.getElem?_toList] at hat
    simp only [position?, hbisect, hat, haddress, if_true]

/-- Bisection finds exactly the instruction that has the address. -/
theorem find?_eq_some_iff (hcode : Checked method.instructions.toList)
    {address : Address} {instruction : Instruction} :
    method.find? address = some instruction ↔
      instruction ∈ method.instructions.toList ∧ instruction.address = address := by
  rw [find?, Option.bind_eq_some_iff, List.mem_iff_getElem?]
  simp only [position?_eq_some_iff hcode, ← Array.getElem?_toList]
  constructor
  · rintro ⟨place, hplace, hat⟩
    rw [hat] at hplace
    exact ⟨⟨place, hat⟩, Option.some.inj hplace⟩
  · rintro ⟨⟨place, hat⟩, haddress⟩
    exact ⟨place, by rw [hat, Option.map_some, haddress], hat⟩

end Method

/-! ## Neighbours -/

namespace Listing

variable {listing : Listing} {code : List Instruction}

namespace Indexes

/-- The instruction before another one is the previous of the list. -/
theorem previous?_eq_some_iff_next? (hindex : listing.Indexes code) (hcode : Checked code)
    {address previous : Address} :
    listing.previous? address = some previous ↔ listing.next? previous = some address := by
  rw [hindex.next?_eq_some_iff hcode, previous?]
  simp only [hindex.getElem?_instructions]
  constructor
  · intro hprevious
    split at hprevious
    · next place hplace => exact ⟨place, hprevious, (hindex.getElem?_index hcode).1 hplace⟩
    · cases hprevious
  · rintro ⟨place, hprevious, hplace⟩
    rw [(hindex.getElem?_index hcode).2 hplace]
    exact hprevious

/-- What follows an address is an instruction behind it with none between. -/
theorem next?_eq_some_iff_adjacent (hindex : listing.Indexes code) (hcode : Checked code)
    {address next : Address} :
    listing.next? address = some next ↔
      address ∈ code.map Instruction.address ∧ next ∈ code.map Instruction.address ∧
        address < next ∧
        ∀ other ∈ code.map Instruction.address, other < next → other ≤ address := by
  rw [hindex.next?_eq_some_iff hcode]
  constructor
  · rintro ⟨place, hplace, hnext⟩
    have hlt : address < next := (hcode.lt_iff_of_getElem? hplace hnext).2 place.lt_succ_self
    exact ⟨Checked.mem_map_address_iff.2 ⟨place, hplace⟩,
      Checked.mem_map_address_iff.2 ⟨place + 1, hnext⟩, hlt,
      fun other hother => hcode.le_of_lt_next hplace hnext hother⟩
  · rintro ⟨haddress, hnext, hlt, hbetween⟩
    obtain ⟨place, hplace⟩ := Checked.mem_map_address_iff.1 haddress
    obtain ⟨found, hfound⟩ := Checked.mem_map_address_iff.1 hnext
    have hplaces : place < found := (hcode.lt_iff_of_getElem? hplace hfound).1 hlt
    -- an instruction between the two places would have an address between the two
    have hsucc : ¬ place + 1 < found := by
      intro hskipped
      have hmiddle := Checked.getElem?_map_address
        (hskipped.trans (Checked.lt_length_of_getElem? hfound))
      have hbefore := (hcode.lt_iff_of_getElem? hmiddle hfound).2 hskipped
      have hbehind := (hcode.lt_iff_of_getElem? hplace hmiddle).2 place.lt_succ_self
      exact (hbetween _ (Checked.mem_map_address_iff.2 ⟨_, hmiddle⟩) hbefore).not_gt hbehind
    have hfoundNext : found = place + 1 := by omega
    exact ⟨place, hplace, hfoundNext ▸ hfound⟩

/-- What follows an instruction is the least address behind it. -/
theorem next?_eq_some_iff_isLeast (hindex : listing.Indexes code) (hcode : Checked code)
    {address next : Address} :
    listing.next? address = some next ↔
      address ∈ code.map Instruction.address ∧
        IsLeast {other | other ∈ code.map Instruction.address ∧ address < other} next := by
  rw [hindex.next?_eq_some_iff_adjacent hcode]
  refine and_congr_right fun _ => ?_
  constructor
  · rintro ⟨hnext, hlt, hbetween⟩
    refine ⟨⟨hnext, hlt⟩, ?_⟩
    rintro other ⟨hother, hbehind⟩
    by_contra hbefore
    exact (hbetween other hother (not_le.1 hbefore)).not_gt hbehind
  · rintro ⟨⟨hnext, hlt⟩, hleast⟩
    refine ⟨hnext, hlt, ?_⟩
    intro other hother hbefore
    by_contra hbehind
    exact (hleast ⟨hother, not_le.1 hbehind⟩).not_gt hbefore

/-- What precedes an instruction is the greatest address before it. -/
theorem previous?_eq_some_iff_isGreatest (hindex : listing.Indexes code)
    (hcode : Checked code) {address previous : Address} :
    listing.previous? address = some previous ↔
      address ∈ code.map Instruction.address ∧
        IsGreatest {other | other ∈ code.map Instruction.address ∧ other < address}
          previous := by
  rw [hindex.previous?_eq_some_iff_next? hcode, hindex.next?_eq_some_iff_adjacent hcode]
  constructor
  · rintro ⟨hprevious, haddress, hlt, hbetween⟩
    exact ⟨haddress, ⟨hprevious, hlt⟩, fun other hother => hbetween other hother.1 hother.2⟩
  · rintro ⟨haddress, ⟨hprevious, hlt⟩, hgreatest⟩
    exact ⟨hprevious, haddress, hlt, fun other hother hbefore => hgreatest ⟨hother, hbefore⟩⟩

theorem exists_previous?_of_lt (hindex : listing.Indexes code) (hcode : Checked code)
    {earlier address : Address} (hearlier : earlier ∈ code.map Instruction.address)
    (haddress : address ∈ code.map Instruction.address) (hlt : earlier < address) :
    ∃ previous, listing.previous? address = some previous := by
  obtain ⟨place, hplace⟩ := Checked.mem_map_address_iff.1 haddress
  obtain ⟨found, hfound⟩ := Checked.mem_map_address_iff.1 hearlier
  have hbefore : found < place := (hcode.lt_iff_of_getElem? hfound hplace).1 hlt
  cases place with
  | zero => exact absurd hbefore found.not_lt_zero
  | succ before =>
      have hlength := Nat.lt_of_succ_lt (Checked.lt_length_of_getElem? hplace)
      refine ⟨(code[before]).address, ?_⟩
      rw [hindex.previous?_eq_some_iff_next? hcode, hindex.next?_eq_some_iff hcode]
      exact ⟨before, Checked.getElem?_map_address hlength, hplace⟩

theorem instruction?_eq_find? {method : Method}
    (hindex : listing.Indexes method.instructions.toList)
    (hcode : Checked method.instructions.toList) : listing.instruction? = method.find? := by
  funext address
  ext instruction
  rw [hindex.instruction?_eq_some_iff hcode, Method.find?_eq_some_iff hcode]

theorem isSome_instruction?_iff (hindex : listing.Indexes code) (hcode : Checked code)
    {address : Address} :
    (listing.instruction? address).isSome = true ↔ address ∈ code.map Instruction.address := by
  rw [Option.isSome_iff_exists, List.mem_map]
  simp only [hindex.instruction?_eq_some_iff hcode]

theorem pairwise_jumpsTo (hindex : listing.Indexes code) (hcode : Checked code)
    (target : Address) : (listing.jumpsTo target).Pairwise (· < ·) := by
  rw [hindex.jumpsTo_eq, List.pairwise_map]
  exact hcode.increasing.filter _

theorem mem_jumpsTo_iff (hindex : listing.Indexes code) {source target : Address} :
    source ∈ listing.jumpsTo target ↔
      ∃ jump ∈ code, jump.address = source ∧ jump.jumpTarget? = some target := by
  simp only [hindex.jumpsTo_eq, List.mem_map, List.mem_filter, decide_eq_true_eq, and_assoc]
  refine exists_congr fun jump => and_congr_right fun _ => and_comm

end Indexes

end Listing

def Method.Holds (method : Method) (address : Address) : Prop :=
  ∃ instruction ∈ method.instructions, instruction.address = address

namespace Listing

/-- The answers of a listing are those that the instructions of a method give. -/
structure Mirrors (listing : Listing) (method : Method) : Prop where
  /-- The index and the bisection find the same. -/
  found (address : Address) : listing.instruction? address = method.find? address
  /-- Something is found exactly where an instruction stands. -/
  holds (address : Address) :
    (listing.instruction? address).isSome = true ↔ method.Holds address
  /-- The next address is the least above. -/
  next (address following : Address) :
    listing.next? address = some following ↔
      method.Holds address ∧ IsLeast {other | method.Holds other ∧ address < other} following
  /-- The previous address is the greatest below. -/
  previous (address preceding : Address) :
    listing.previous? address = some preceding ↔
      method.Holds address ∧ IsGreatest {other | method.Holds other ∧ other < address} preceding
  /-- The two directions agree. -/
  converse (address following : Address) :
    listing.next? address = some following ↔ listing.previous? following = some address
  /-- The jumps into an address come in increasing order. -/
  ordered (target : Address) : (listing.jumpsTo target).Pairwise (· < ·)
  /-- The jumps into an address are all the instructions that have it as target. -/
  jumps (source target : Address) :
    source ∈ listing.jumpsTo target ↔
      ∃ jump ∈ method.instructions, jump.address = source ∧ jump.jumpTarget? = some target

/-- A method that keeps the contract has a listing, which answers as the method does. -/
theorem mirrors_of_validate {method : Method} (hmethod : method.validate = .ok ()) :
    ∃ listing, ofMethod method = .ok listing ∧ listing.Mirrors method := by
  have hcode := Method.validate_eq_ok_iff.1 hmethod
  obtain ⟨listing, hlisting⟩ : ∃ listing, ofMethod method = .ok listing :=
    ⟨_, ofMethod_eq_ok_iff.2 ⟨hcode, rfl⟩⟩
  have hindex := indexes_of_ofMethod hlisting
  have hholds : ∀ address, address ∈ method.instructions.toList.map Instruction.address ↔
      method.Holds address := by
    simp [Method.Holds]
  refine ⟨listing, hlisting, ?_⟩
  exact {
    found := congrFun (hindex.instruction?_eq_find? hcode)
    holds := fun address => (hindex.isSome_instruction?_iff hcode).trans (hholds address)
    next := fun address following => by
      simpa only [hholds] using hindex.next?_eq_some_iff_isLeast hcode
    previous := fun address preceding => by
      simpa only [hholds] using hindex.previous?_eq_some_iff_isGreatest hcode
    converse := fun address following => (hindex.previous?_eq_some_iff_next? hcode).symm
    ordered := hindex.pairwise_jumpsTo hcode
    jumps := fun source target => by
      simpa only [Array.mem_toList_iff] using hindex.mem_jumpsTo_iff }

end Listing

/-- Leaves at once unless both arguments are set.  The addresses have gaps, and two
jumps lead to the end. -/
def Method.guarded : Method where
  name := "guarded"
  instructions := #[.ldarg ⟨0⟩ 0, .jump ⟨3⟩ .brfalse ⟨20⟩, .ldarg ⟨5⟩ 1,
    .jump ⟨8⟩ .brfalse ⟨20⟩, .call ⟨13⟩ 7 0 false, ⟨⟨20⟩, .retVoid, .absent⟩]

theorem Listing.mirrors_of_validate_guarded :
    Method.guarded.validate = .ok () ∧
      ∃ listing, ofMethod Method.guarded = .ok listing ∧ listing.Mirrors Method.guarded :=
  ⟨rfl, mirrors_of_validate rfl⟩

end StackLift
