import StackLift.Lift.Report
import StackLift.Proofs.Engine.Renumber

/-!
# Earlier methods

An engine starts over before each method, but goes on counting branches.  So the methods
that were lifted before, and where they may have failed, show in nothing but the numbers
of branches, and these only in errors.  The report of a module therefore holds what each
method gives on its own, and the report up to the first failure is its beginning.
-/

namespace StackLift

/-! ## Errors that name no branch -/

namespace Pending

variable (offset : Nat) {listing : Listing} {consumer : Address} {pending : Pending}
  {error : LiftError}

theorem renumber_of_take {value : Address}
    (htake : take consumer value pending = .error error) : error.renumber offset = error := by
  rw [take] at htake
  split at htake
  · cases htake
  · cases htake
    rfl

theorem renumber_of_takeAlternatives {alternatives : List Alternative}
    (htake : takeAlternatives consumer alternatives pending = .error error) :
    error.renumber offset = error := by
  induction alternatives generalizing pending with
  | nil => cases htake
  | cons alternative rest ih =>
      rw [takeAlternatives] at htake
      split at htake
      · next hfirst =>
        cases htake
        exact renumber_of_take offset hfirst
      · split at htake
        · next hrest =>
          cases htake
          exact ih hrest
        · cases htake

theorem renumber_of_takeMerge (htake : takeMerge listing consumer pending = .error error) :
    error.renumber offset = error := by
  rw [takeMerge] at htake
  split at htake
  · cases htake
    rfl
  · split at htake
    · next halternatives =>
      cases htake
      exact renumber_of_takeAlternatives offset halternatives
    · cases htake

theorem renumber_of_takeSlot {value : Address} {merge : Option Address}
    (htake : takeSlot listing consumer value merge pending = .error error) :
    error.renumber offset = error := by
  cases merge with
  | some anchor => exact renumber_of_takeMerge offset htake
  | none => exact renumber_of_take offset htake

/-- An operand that cannot be taken is told by its address alone. -/
theorem renumber_of_takeOperands {slots : List Popped}
    (htake : takeOperands listing consumer slots pending = .error error) :
    error.renumber offset = error := by
  induction slots generalizing pending with
  | nil => cases htake
  | cons popped rest ih =>
      rcases popped with ⟨slot, merge⟩
      cases slot with
      | hole =>
          cases htake
          rfl
      | value value =>
          rw [takeOperands] at htake
          split at htake
          · next hfirst =>
            cases htake
            exact renumber_of_takeSlot offset hfirst
          · split at htake
            · next hrest =>
              cases htake
              exact ih hrest
            · cases htake

end Pending

/-! ## Lifting with other numbers -/

namespace Engine

variable (offset : Nat)

theorem popSlots_renumber (engine : Engine) (listing : Listing) (count : Nat)
    (taken : List Popped) :
    (engine.renumber offset).popSlots listing count taken =
      Prod.map (renumber offset) (Prod.map id (Except.mapError (LiftError.renumber offset)))
        (engine.popSlots listing count taken) := by
  induction count generalizing engine listing taken with
  | zero => rfl
  | succ count ih =>
      rw [popSlots, popSlots, pop_renumber]
      rcases engine.pop listing with ⟨popped, merged, result⟩
      cases result with
      | ok slot => exact ih popped merged (slot :: taken)
      | error error => rfl

theorem visit_renumber (engine : Engine) (draft : Draft) (instruction : Instruction) :
    (engine.renumber offset).visit draft instruction =
      Prod.map (renumber offset) (Except.mapError (LiftError.renumber offset))
        (engine.visit draft instruction) := by
  simp only [visit, advance_renumber]
  rcases engine.advance instruction.address with ⟨advanced, result⟩
  cases result with
  | error error => rfl
  | ok done =>
      simp only [Prod.map, Except.mapError, popSlots_renumber]
      rcases advanced.popSlots draft.listing instruction.pops [] with ⟨popped, listing, result⟩
      cases result with
      | error error => rfl
      | ok slots =>
          simp only [id_eq, forkAt_renumber, push_renumber]
          split
          · next htake =>
            simp only [Pending.renumber_of_takeOperands offset htake]
          · split
            · next hset =>
              rw [Listing.setProducers] at hset
              split at hset
              · cases hset
              · cases hset
                rfl
            · split <;> rfl

theorem visitAll_renumber (engine : Engine) (draft : Draft) (code : List Instruction) :
    (engine.renumber offset).visitAll draft code =
      Prod.map (renumber offset) (Except.mapError (LiftError.renumber offset))
        (engine.visitAll draft code) := by
  induction code generalizing engine draft with
  | nil => rfl
  | cons instruction rest ih =>
      rw [visitAll, visitAll, visit_renumber]
      rcases engine.visit draft instruction with ⟨visited, result⟩
      cases result with
      | ok next => exact ih visited next
      | error error => rfl

theorem finish_renumber (engine : Engine) (draft : Draft) (method : Method) :
    draft.finish (engine.renumber offset) method =
      (draft.finish engine method).mapError (LiftError.renumber offset) := by
  have hfound : ((engine.renumber offset).branches.find? fun branch => !branch.isEmpty) =
      (engine.branches.find? fun branch => !branch.isEmpty).map (Branch.renumber offset) := by
    rw [renumber, List.find?_map]
    rfl
  rw [Draft.finish, Draft.finish, hfound]
  split
  · cases engine.branches.find? fun branch => !branch.isEmpty with
    | none => rfl
    | some branch => rfl
  · rfl

variable {offset}

/-- Lifting depends on an engine only through the number of its next branch. -/
theorem lift_renumber {left right : Engine} (hnext : left.nextId = right.nextId + offset)
    (method : Method) :
    left.lift method =
      Prod.map (renumber offset) (Except.mapError (LiftError.renumber offset))
        (right.lift method) := by
  have hreset : left.reset = right.reset.renumber offset := by
    rw [reset, reset, withMain_renumber, hnext]
  simp only [lift, hreset]
  cases Listing.ofMethod method with
  | error fault => rfl
  | ok listing =>
      simp only [visitAll_renumber]
      rcases right.reset.visitAll (.start listing) method.instructions.toList with
        ⟨walked, result⟩
      cases result with
      | error error => rfl
      | ok draft => simp only [Prod.map, Except.mapError, finish_renumber]

/-- The engine goes on counting. -/
theorem nextId_le_lift (engine : Engine) (method : Method) :
    engine.nextId ≤ (engine.lift method).1.nextId := by
  -- seen from an engine that counts from zero, all numbers are raised by the next one
  have hzero : engine.nextId = ({ engine with nextId := 0 } : Engine).nextId + engine.nextId :=
    (Nat.zero_add _).symm
  rw [lift_renumber hzero method]
  exact Nat.le_add_left _ _

/-- The engine after methods have been lifted with it, whether this has succeeded or
not. -/
def liftAll (engine : Engine) (methods : List Method) : Engine :=
  methods.foldl (fun used method => (used.lift method).1) engine

theorem nextId_le_liftAll (engine : Engine) (methods : List Method) :
    engine.nextId ≤ (engine.liftAll methods).nextId := by
  induction methods generalizing engine with
  | nil => exact Nat.le_refl _
  | cons method rest ih => exact Nat.le_trans (engine.nextId_le_lift method) (ih _)

/-- A method gives the same with an engine that has counted further, up to the numbers in
errors. -/
theorem exists_lift_eq {used engine : Engine} (hnext : engine.nextId ≤ used.nextId) :
    ∃ offset, ∀ method,
      (used.lift method).2 = (engine.lift method).2.mapError (LiftError.renumber offset) := by
  refine ⟨used.nextId - engine.nextId, fun method => ?_⟩
  rw [lift_renumber (Nat.add_sub_cancel' hnext).symm method]
  rfl

end Engine

/-! ## Reports -/

theorem liftMethods_cons (failFast : Bool) (engine : Engine) (method : Method)
    (rest : List Method) :
    liftMethods failFast engine (method :: rest) =
      ⟨method.displayName, (engine.lift method).2⟩ ::
        if failFast && !(engine.lift method).2.isOk then []
        else liftMethods failFast (engine.lift method).1 rest := by
  rw [liftMethods]
  rcases engine.lift method with ⟨used, result⟩
  cases result with
  | ok lifted => simp [Except.isOk, Except.toBool]
  | error error => simp [Except.isOk, Except.toBool]

/-- Each outcome is that of the method on its own, up to the numbers in errors. -/
theorem forall₂_liftMethods {fresh engine : Engine} (hnext : fresh.nextId ≤ engine.nextId)
    (methods : List Method) :
    List.Forall₂ (fun method outcome => outcome.name = method.displayName ∧
        ∃ offset, outcome.result =
          (fresh.lift method).2.mapError (LiftError.renumber offset))
      methods (liftMethods false engine methods) := by
  induction methods generalizing engine with
  | nil => exact .nil
  | cons method rest ih =>
      rw [liftMethods_cons, Bool.false_and, if_neg Bool.false_ne_true]
      obtain ⟨offset, hlift⟩ := Engine.exists_lift_eq hnext
      exact .cons ⟨rfl, offset, hlift method⟩
        (ih (Nat.le_trans hnext (engine.nextId_le_lift method)))

/-- The outcomes up to the first failure. -/
def upToFailure : List MethodOutcome → List MethodOutcome
  | [] => []
  | outcome :: rest => outcome :: if outcome.result.isOk then upToFailure rest else []

theorem liftMethods_failFast (engine : Engine) (methods : List Method) :
    liftMethods true engine methods = upToFailure (liftMethods false engine methods) := by
  induction methods generalizing engine with
  | nil => rfl
  | cons method rest ih =>
      rw [liftMethods_cons, liftMethods_cons, Bool.false_and, if_neg Bool.false_ne_true,
        upToFailure, ← ih]
      cases (engine.lift method).2.isOk <;> rfl

/-- Outcomes are cut off right behind the first failure. -/
structure CutAtFailure (all cut : List MethodOutcome) : Prop where
  isPrefix : cut <+: all
  succeeded : ∀ outcome ∈ cut.dropLast, outcome.result.isOk = true
  longest : ∀ other, other <+: all → (∀ outcome ∈ other.dropLast, outcome.result.isOk = true) →
    other <+: cut
  failed : ∀ failure, (all.find? fun outcome => !outcome.result.isOk) = some failure →
    cut.getLast? = some failure

theorem upToFailure_isPrefix (outcomes : List MethodOutcome) :
    upToFailure outcomes <+: outcomes := by
  induction outcomes with
  | nil => exact List.prefix_rfl
  | cons outcome rest ih =>
      rw [upToFailure, List.prefix_cons_inj]
      split
      · exact ih
      · exact List.nil_prefix

/-- What stands before the last of some outcomes, with one more in front. -/
theorem mem_dropLast_cons {outcome first : MethodOutcome} {rest : List MethodOutcome} :
    outcome ∈ (first :: rest).dropLast ↔
      rest ≠ [] ∧ (outcome = first ∨ outcome ∈ rest.dropLast) := by
  cases rest with
  | nil => simp
  | cons second others => simp

theorem isOk_of_mem_upToFailure {outcomes : List MethodOutcome} {outcome : MethodOutcome}
    (hmem : outcome ∈ (upToFailure outcomes).dropLast) : outcome.result.isOk = true := by
  induction outcomes with
  | nil => cases hmem
  | cons first rest ih =>
      rw [upToFailure, mem_dropLast_cons] at hmem
      obtain ⟨hrest, hmem⟩ := hmem
      split at hrest
      · next hok =>
        rw [if_pos hok] at hmem
        rcases hmem with rfl | hlater
        · exact hok
        · exact ih hlater
      · exact absurd rfl hrest

theorem prefix_upToFailure {outcomes other : List MethodOutcome} (hbegins : other <+: outcomes)
    (hok : ∀ outcome ∈ other.dropLast, outcome.result.isOk = true) :
    other <+: upToFailure outcomes := by
  induction outcomes generalizing other with
  | nil => exact hbegins
  | cons first rest ih =>
      cases other with
      | nil => exact List.nil_prefix
      | cons outcome others =>
          obtain ⟨rfl, hothers⟩ := List.cons_prefix_cons.1 hbegins
          rw [upToFailure, List.prefix_cons_inj]
          split
          · apply ih hothers
            intro later hlater
            have hmore : others ≠ [] := List.ne_nil_of_mem ((List.dropLast_sublist _).mem hlater)
            exact hok later (mem_dropLast_cons.2 ⟨hmore, Or.inr hlater⟩)
          · next hfailed =>
            -- only the last outcome may be a failure, so nothing comes after this one
            by_cases hmore : others = []
            · exact List.prefix_nil.2 hmore
            · exact absurd (hok outcome (mem_dropLast_cons.2 ⟨hmore, Or.inl rfl⟩)) hfailed

theorem getLast?_upToFailure {outcomes : List MethodOutcome} {failure : MethodOutcome}
    (hfirst : (outcomes.find? fun outcome => !outcome.result.isOk) = some failure) :
    (upToFailure outcomes).getLast? = some failure := by
  induction outcomes with
  | nil => cases hfirst
  | cons outcome rest ih =>
      rw [List.find?_cons] at hfirst
      rw [upToFailure, List.getLast?_cons]
      cases hok : outcome.result.isOk with
      | false =>
          rw [hok] at hfirst
          exact hfirst
      | true =>
          rw [hok] at hfirst
          rw [if_pos rfl, ih hfirst]
          rfl

theorem all_isOk_upToFailure (outcomes : List MethodOutcome) :
    ((upToFailure outcomes).all fun outcome => outcome.result.isOk) =
      outcomes.all fun outcome => outcome.result.isOk := by
  induction outcomes with
  | nil => rfl
  | cons outcome rest ih =>
      rw [upToFailure, List.all_cons, List.all_cons]
      cases outcome.result.isOk with
      | false => rfl
      | true => rw [if_pos rfl, ih]

theorem Report.isSuccess_eq_all (report : Report) :
    report.isSuccess = report.outcomes.all fun outcome => outcome.result.isOk := by
  rw [isSuccess, failures, Bool.eq_iff_iff, List.isEmpty_iff, List.filterMap_eq_nil_iff,
    List.all_eq_true]
  apply forall₂_congr
  intro outcome _
  cases outcome.result with
  | ok lifted => simp [Except.isOk, Except.toBool]
  | error error => simp [Except.isOk, Except.toBool]

/-- What was lifted before changes nothing but the numbers of branches in errors, all by
the same offset.  So the report of a module holds what its methods give on their own, the
report up to the first failure is its beginning up to there, and both agree on whether
all has gone well. -/
theorem lift_independent_of_history :
    (∀ history : List Method, ∃ offset, ∀ method,
        ((Engine.new.liftAll history).lift method).2 =
          (Engine.new.lift method).2.mapError (LiftError.renumber offset)) ∧
      ∀ code : CodeModule,
        List.Forall₂ (fun method outcome => outcome.name = method.displayName ∧
            ∃ offset, outcome.result =
              (Engine.new.lift method).2.mapError (LiftError.renumber offset))
          code.methods (code.lift false).outcomes ∧
        CutAtFailure (code.lift false).outcomes (code.lift true).outcomes ∧
        (code.lift true).isSuccess = (code.lift false).isSuccess := by
  constructor
  · intro history
    exact Engine.exists_lift_eq (Engine.new.nextId_le_liftAll history)
  · intro code
    have hcut : (code.lift true).outcomes = upToFailure (code.lift false).outcomes :=
      liftMethods_failFast Engine.new code.methods
    refine ⟨forall₂_liftMethods (Nat.le_refl _) code.methods, ?_, ?_⟩
    · rw [hcut]
      exact ⟨upToFailure_isPrefix _, fun outcome => isOk_of_mem_upToFailure,
        fun other => prefix_upToFailure, fun failure => getLast?_upToFailure⟩
    · rw [Report.isSuccess_eq_all, Report.isSuccess_eq_all, hcut, all_isOk_upToFailure]

/-- A method that fails for the second time names another branch than before. -/
example :
    ((Engine.new.liftAll [⟨"m", #[⟨⟨2⟩, .add, .absent⟩]⟩]).lift
        ⟨"m", #[⟨⟨2⟩, .add, .absent⟩]⟩).2 = .error (.underflow 2 (some ⟨2⟩)) :=
  rfl

end StackLift
