import StackLift.Proofs.Listing.Checked

/-!
# The breach that a refused method is reported for

A method may break the contract in many places at once.  What `Method.validate`
reports is fixed by the list of instructions alone: the first instruction that is
wrong by itself or beside its predecessor, and only where there is none the first
jump that leads nowhere.
-/

namespace StackLift

/-- The fault stands at the first place at which anything was found. -/
def Fault.IsFirst (found : Nat → Fault → Prop) (fault : Fault) : Prop :=
  ∃ place, found place fault ∧ ∀ earlier < place, ∀ other, ¬ found earlier other

namespace Method

/-- Address of the instruction before a place.  Nothing but the given address stands
before the first place. -/
def addressBefore? (previous : Option Address) (code : List Instruction) :
    Nat → Option Address
  | 0 => previous
  | place + 1 => (code[place]?).map Instruction.address

/-- What is wrong with the instruction at a place.  Of several defects the reserved
address counts first, then the order, then the operand. -/
inductive Breach (previous : Option Address) (code : List Instruction) (place : Nat) :
    Fault → Prop where
  | reserved {instruction : Instruction} (hat : code[place]? = some instruction)
      (hreserved : instruction.address = Address.last) :
      Breach previous code place (.reservedAddress instruction.address)
  | order {instruction : Instruction} {before : Address}
      (hat : code[place]? = some instruction)
      (hunreserved : instruction.address ≠ Address.last)
      (hbefore : addressBefore? previous code place = some before)
      (hle : instruction.address ≤ before) :
      Breach previous code place (.notIncreasing before instruction.address)
  | operand {instruction : Instruction} (hat : code[place]? = some instruction)
      (hunreserved : instruction.address ≠ Address.last)
      (habove : ∀ before ∈ addressBefore? previous code place, before < instruction.address)
      (hrefused : instruction.opcode.accepts instruction.operand = false) :
      Breach previous code place
        (.operandMismatch instruction.address instruction.opcode instruction.operand)

/-- The instruction at a place jumps to an address that no instruction has. -/
inductive Strays (code : List Instruction) (place : Nat) : Fault → Prop where
  | missing {jump : Instruction} {target : Address} (hat : code[place]? = some jump)
      (htarget : jump.jumpTarget? = some target)
      (hmissing : ∀ instruction ∈ code, instruction.address ≠ target) :
      Strays code place (.missingTarget jump.address target)

end Method

/-! ## The first place -/

/-- What is found first is found at the first place, or nothing is found there and it
is what is found first behind it. -/
theorem Fault.isFirst_iff {found : Nat → Fault → Prop} {fault : Fault} :
    fault.IsFirst found ↔
      found 0 fault ∨
        (∀ other, ¬ found 0 other) ∧ fault.IsFirst fun place => found (place + 1) := by
  constructor
  · rintro ⟨place, hfound, hclean⟩
    cases place with
    | zero => exact Or.inl hfound
    | succ place =>
        refine Or.inr ⟨hclean 0 place.succ_pos, place, hfound, ?_⟩
        intro earlier hearlier
        exact hclean (earlier + 1) (Nat.succ_lt_succ hearlier)
  · rintro (hfound | ⟨hclean, place, hfound, hrest⟩)
    · exact ⟨0, hfound, fun earlier hearlier => absurd hearlier earlier.not_lt_zero⟩
    · refine ⟨place + 1, hfound, ?_⟩
      intro earlier hearlier
      cases earlier with
      | zero => exact hclean
      | succ earlier => exact hrest earlier (Nat.lt_of_succ_lt_succ hearlier)

/-- Nothing is found first exactly when nothing is found at all. -/
theorem Fault.forall_not_isFirst_iff {found : Nat → Fault → Prop} :
    (∀ fault : Fault, ¬ fault.IsFirst found) ↔ ∀ place fault, ¬ found place fault := by
  constructor
  · intro hnone place
    induction place using Nat.strongRecOn with
    | ind place hclean =>
        intro fault hfound
        exact hnone fault ⟨place, hfound, hclean⟩
  · rintro hnone fault ⟨place, hfound, _⟩
    exact hnone place fault hfound

namespace Method

variable {previous : Option Address} {code : List Instruction} {fault : Fault}

/-! ## Breaches by single instructions -/

theorem breach_zero_iff {instruction : Instruction} :
    Breach previous (instruction :: code) 0 fault ↔
      faultAt? previous instruction = some fault := by
  constructor
  · intro hbreach
    cases hbreach with
    | reserved hat hreserved =>
        cases hat
        rw [faultAt?, if_pos hreserved]
    | @order _ before hat hunreserved hbefore hle =>
        cases hat
        have hfilter : previous.filter (fun before => instruction.address ≤ before) = some before :=
          Option.filter_eq_some_iff.2 ⟨hbefore, decide_eq_true hle⟩
        simp only [faultAt?, if_neg hunreserved, hfilter]
    | operand hat hunreserved habove hrefused =>
        cases hat
        have hfilter : previous.filter (fun before => instruction.address ≤ before) = none := by
          rw [Option.filter_eq_none_iff]
          intro before hbefore
          simpa using habove before hbefore
        simp [faultAt?, hunreserved, hfilter, hrefused]
  · intro hfault
    rw [faultAt?] at hfault
    split at hfault
    · next hreserved =>
      cases hfault
      exact .reserved rfl hreserved
    · next hunreserved =>
      split at hfault
      · next before hfilter =>
        cases hfault
        rw [Option.filter_eq_some_iff] at hfilter
        exact .order rfl hunreserved hfilter.1 (of_decide_eq_true hfilter.2)
      · next hfilter =>
        split at hfault
        · cases hfault
        · next hrefused =>
          cases hfault
          refine .operand rfl hunreserved ?_ (by simpa using hrefused)
          rw [Option.filter_eq_none_iff] at hfilter
          intro before hbefore
          simpa using hfilter before hbefore

theorem breach_succ_iff {instruction : Instruction} {place : Nat} :
    Breach previous (instruction :: code) (place + 1) fault ↔
      Breach (some instruction.address) code place fault := by
  have hbefore : addressBefore? previous (instruction :: code) (place + 1) =
      addressBefore? (some instruction.address) code place := by
    cases place <;> rfl
  constructor
  · intro hbreach
    cases hbreach with
    | reserved hat hreserved => exact .reserved hat hreserved
    | order hat hunreserved hprevious hle =>
        exact .order hat hunreserved (hbefore.symm.trans hprevious) hle
    | operand hat hunreserved habove hrefused =>
        rw [hbefore] at habove
        exact .operand hat hunreserved habove hrefused
  · intro hbreach
    cases hbreach with
    | reserved hat hreserved => exact .reserved hat hreserved
    | order hat hunreserved hprevious hle =>
        exact .order hat hunreserved (hbefore.trans hprevious) hle
    | operand hat hunreserved habove hrefused =>
        rw [← hbefore] at habove
        exact .operand hat hunreserved habove hrefused

theorem not_breach_nil {place : Nat} : ¬ Breach previous [] place fault := by
  intro hbreach
  cases hbreach with
  | reserved hat _ => cases hat
  | order hat _ _ _ => cases hat
  | operand hat _ _ _ => cases hat

theorem firstFault?_eq_some_iff :
    firstFault? previous code = some fault ↔ fault.IsFirst (Breach previous code) := by
  induction code generalizing previous with
  | nil =>
      have hnone : ¬ fault.IsFirst (Breach previous []) :=
        Fault.forall_not_isFirst_iff.2 (fun _ _ => not_breach_nil) fault
      simp [firstFault?, hnone]
  | cons instruction rest ih =>
      have hrest : (fun place => Breach previous (instruction :: rest) (place + 1)) =
          Breach (some instruction.address) rest := by
        funext place other
        exact propext breach_succ_iff
      rw [Fault.isFirst_iff, hrest, ← ih, firstFault?]
      simp only [breach_zero_iff]
      cases faultAt? previous instruction <;> simp

/-! ## Jumps that lead nowhere -/

theorem findSome?_eq_some_iff_isFirst {check : Instruction → Option Fault} :
    code.findSome? check = some fault ↔
      fault.IsFirst fun place other =>
        ∃ instruction, code[place]? = some instruction ∧ check instruction = some other := by
  induction code with
  | nil =>
      rw [iff_false_intro (Fault.forall_not_isFirst_iff.2 (by simp) fault)]
      simp
  | cons instruction rest ih =>
      rw [Fault.isFirst_iff]
      simp only [List.getElem?_cons_zero, List.getElem?_cons_succ, ← ih, Option.some.injEq,
        exists_eq_left', List.findSome?_cons]
      cases check instruction <;> simp

theorem strayJump?_eq_some_iff :
    strayJump? code = some fault ↔ fault.IsFirst (Strays code) := by
  rw [strayJump?, findSome?_eq_some_iff_isFirst]
  apply iff_of_eq
  congr 1
  funext place other
  apply propext
  constructor
  · rintro ⟨jump, hat, hother⟩
    split at hother
    · next target htarget =>
      split at hother
      · cases hother
      · next hmissing =>
        cases hother
        exact .missing hat htarget (by simpa using hmissing)
    · cases hother
  · rintro ⟨hat, htarget, hmissing⟩
    refine ⟨_, hat, ?_⟩
    simpa [htarget] using hmissing

/-- A method is accepted exactly when it keeps the contract.  Otherwise the first
instruction that breaks it alone or beside its predecessor is reported, and the first
jump that leads nowhere only where no instruction does so. -/
theorem validate_reports_first (method : Method) :
    (method.validate = .ok () ↔ Checked method.instructions.toList) ∧
      ∀ fault, method.validate = .error fault ↔
        fault.IsFirst (Breach none method.instructions.toList) ∨
          (∀ place other, ¬ Breach none method.instructions.toList place other) ∧
            fault.IsFirst (Strays method.instructions.toList) := by
  refine ⟨validate_eq_ok_iff, fun fault => ?_⟩
  rw [← Fault.forall_not_isFirst_iff]
  simp only [← firstFault?_eq_some_iff, ← strayJump?_eq_some_iff, validate]
  cases firstFault? none method.instructions.toList with
  | some first => simp
  | none => cases strayJump? method.instructions.toList <;> simp

-- The jump leads nowhere and the operand is missing, yet the order is reported.
example :
    validate ⟨"mixed", #[.jump ⟨3⟩ .br ⟨9⟩, ⟨⟨2⟩, .ldcI4, .absent⟩]⟩ =
      .error (.notIncreasing ⟨3⟩ ⟨2⟩) := rfl

end Method

end StackLift
