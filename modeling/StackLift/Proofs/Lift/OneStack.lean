import StackLift.Proofs.Engine.OnlyActive
import StackLift.Proofs.Lift.Merges

/-!
# Code without forward jumps

A plain machine has one stack of expressions: each instruction pops its operands and is
pushed or emitted.  Lifting does the same as long as only the active branch holds anything.
Without forward jumps there is no other branch, and the two agree on every outcome.
-/

namespace StackLift

/-- A machine with one stack of expressions. -/
structure OneStack where
  /-- The expressions on the stack, topmost first. -/
  stack : List Expr
  /-- The expressions that left nothing on the stack, in order. -/
  emitted : List Expr

namespace OneStack

def start : OneStack := ⟨[], []⟩

/-- Pops the operands of an instruction, and pushes or emits its node.  There is no next
state if an operand is missing. -/
def step (state : OneStack) (instruction : Instruction) : Option OneStack :=
  if instruction.pops ≤ state.stack.length then
    let expr : Expr := .op instruction.address instruction.opcode instruction.operand
      (state.stack.take instruction.pops).reverse
    let left := state.stack.drop instruction.pops
    some (if 0 < instruction.pushes then ⟨expr :: left, state.emitted⟩
      else ⟨left, state.emitted ++ [expr]⟩)
  else none

/-- What a step takes from the stack, and what it leaves. -/
theorem step_eq_some_iff {state next : OneStack} {instruction : Instruction} :
    state.step instruction = some next ↔
      ∃ taken left, state.stack = taken ++ left ∧ taken.length = instruction.pops ∧
        next = if 0 < instruction.pushes then
            ⟨.op instruction.address instruction.opcode instruction.operand taken.reverse ::
              left, state.emitted⟩
          else ⟨left, state.emitted ++
            [.op instruction.address instruction.opcode instruction.operand
              taken.reverse]⟩ := by
  rw [step]
  constructor
  · intro hstep
    split at hstep
    · next henough =>
      refine ⟨state.stack.take instruction.pops, state.stack.drop instruction.pops,
        (List.take_append_drop _ _).symm, ?_, (Option.some.inj hstep).symm⟩
      rw [List.length_take, Nat.min_eq_left henough]
    · cases hstep
  · rintro ⟨taken, left, hstack, hlength, rfl⟩
    have henough : instruction.pops ≤ state.stack.length := by
      rw [hstack, List.length_append, hlength]
      exact Nat.le_add_right _ _
    rw [if_pos henough, hstack, ← hlength, List.take_left, List.drop_left]

theorem step_eq_none_iff {state : OneStack} {instruction : Instruction} :
    state.step instruction = none ↔ state.stack.length < instruction.pops := by
  rw [step]
  split
  · next henough => simpa using henough
  · next hshort => simpa using hshort

/-- Runs the machine over some instructions, up to the first that lacks an operand. -/
def run (state : OneStack) : List Instruction → Except Address OneStack
  | [] => .ok state
  | instruction :: rest =>
    match state.step instruction with
    | some next => run next rest
    | none => .error instruction.address

end OneStack

namespace Engine

variable {code : List Instruction} {listing : Listing} {instruction : Instruction}

/-- Only a jump forks, a branch that lasts up to where it leads forward. -/
theorem jumpTarget?_of_forkTarget? (hindex : listing.Indexes code) (hcode : Checked code)
    (hmem : instruction ∈ code) {target : Address}
    (hfork : forkTarget? listing instruction.address = some target) :
    instruction.jumpTarget? = some target ∧ instruction.isForwardJump = true := by
  have hfound : listing.instruction? instruction.address = some instruction :=
    (hindex.instruction?_eq_some_iff hcode).2 ⟨hmem, rfl⟩
  rw [forkTarget?, hfound] at hfork
  simp only at hfork
  split at hfork
  · next hforward => exact ⟨(Option.filter_eq_some_iff.1 hfork).1, hforward⟩
  · cases hfork

theorem forkAt_eq_self (engine : Engine) (hindex : listing.Indexes code) (hcode : Checked code)
    (hmem : instruction ∈ code) (hforward : instruction.isForwardJump = false) :
    engine.forkAt listing instruction.address = engine := by
  rw [forkAt]
  split
  · next target hfork =>
    rw [(jumpTarget?_of_forkTarget? hindex hcode hmem hfork).2] at hforward
    cases hforward
  · rfl

end Engine

/-! ## Operands from the one stack -/

namespace Pending

theorem take?_middle {value : Address} (expr : Expr) {above : Pending} (below : Pending)
    (habove : value ∉ above.map Prod.fst) :
    take? value (above ++ (value, expr) :: below) = some (expr, above ++ below) := by
  induction above with
  | nil => rw [List.nil_append, take?, if_pos rfl, List.nil_append]
  | cons entry rest ih =>
      rw [List.map_cons, List.mem_cons, not_or] at habove
      rw [List.cons_append, take?, if_neg (Ne.symm habove.1), ih habove.2, List.cons_append]

/-- Operands that are the topmost expressions leave the others in order. -/
theorem takeOperands_stack (listing : Listing) (consumer : Address) {taken left : List Expr}
    (hdistinct : ((taken ++ left).map Expr.address).Nodup) :
    takeOperands listing consumer
        ((taken.map fun expr => (⟨.value expr.address, none⟩ : Popped)).reverse)
        ((taken ++ left).map fun expr => (expr.address, expr)) =
      .ok ((taken.reverse.map Expr.address, taken.reverse),
        left.map fun expr => (expr.address, expr)) := by
  -- the first operand lies deepest, so the last expression is taken first
  induction taken using List.reverseRecOn with
  | nil => rfl
  | append_singleton init deepest ih =>
      have hinit : ((init ++ left).map Expr.address).Nodup := by
        refine hdistinct.sublist (List.Sublist.map _ ?_)
        exact (List.sublist_append_left init [deepest]).append_right left
      have hfresh : deepest.address ∉
          (init.map fun expr => (expr.address, expr)).map Prod.fst := by
        rw [List.map_map]
        rw [List.append_assoc, List.map_append, List.nodup_append] at hdistinct
        intro hmem
        exact hdistinct.2.2 deepest.address hmem deepest.address (by simp) rfl
      have htake := take?_middle deepest (left.map fun expr => (expr.address, expr)) hfresh
      rw [← List.map_append] at htake
      have hpending : (init ++ [deepest] ++ left).map (fun expr => (expr.address, expr)) =
          init.map (fun expr => (expr.address, expr)) ++
            (deepest.address, deepest) :: left.map fun expr => (expr.address, expr) := by
        simp
      rw [List.map_append, List.map_singleton, List.reverse_append, List.reverse_singleton,
        List.singleton_append, takeOperands, takeSlot, take, hpending, htake]
      simp only [ih hinit, List.reverse_append, List.reverse_singleton, List.singleton_append,
        List.map_cons]

end Pending

namespace OneStack

/-- The slots for the values of the expressions on the stack. -/
def slots (state : OneStack) : List Slot :=
  state.stack.map fun expr => .value expr.address

/-- The draft in which the expressions on the stack are waiting. -/
def draft (state : OneStack) (listing : Listing) : Draft where
  listing
  pending := state.stack.map fun expr => (expr.address, expr)
  roots := state.emitted.reverse

variable {state : OneStack} {listing : Listing} {engine : Engine}
  {code visited rest : List Instruction} {instruction : Instruction}

theorem pairwise_address (hholds : (state.draft listing).HoldsVisited engine code visited)
    (hactive : engine.OnlyActive state.slots) :
    (state.stack.map Expr.address).Pairwise (· > ·) := by
  obtain ⟨branch, hbranch, _, hslots⟩ := hactive.exists_activeBranch?
  have hstacked := hholds.tracks.stacked branch hbranch
  rw [Branch.values, hslots, slots, List.filterMap_map] at hstacked
  have hvalues : state.stack.map Expr.address =
      state.stack.filterMap (Slot.value? ∘ fun expr => .value expr.address) := by
    rw [← List.filterMap_eq_map]
    rfl
  rw [hvalues]
  exact hstacked

theorem visit_of_step_eq_none (hactive : engine.OnlyActive state.slots)
    (hahead : engine.Ahead state.slots instruction.address)
    (hstep : state.step instruction = none) :
    ∃ stopped, ∃ id ∈ engine.bounds.map Prod.fst,
      engine.visit (state.draft listing) instruction =
        (stopped, .error (.underflow id (some instruction.address))) := by
  have hshort : state.slots.length < instruction.pops := by
    rw [slots, List.length_map]
    exact step_eq_none_iff.1 hstep
  obtain ⟨moved, hadvance, hmoved, hcursor, hbounds⟩ := hactive.advance hahead
  obtain ⟨stopped, hpops⟩ := hmoved.popSlots_error hshort listing []
  refine ⟨stopped, moved.active, ?_, ?_⟩
  · have hlive := hmoved.active_mem_bounds
    rw [hbounds] at hlive
    exact (List.filter_sublist.map Prod.fst).subset hlive
  · rw [Engine.visit, hadvance]
    simp only [draft, hpops, hcursor]

/-- Where the machine goes on, lifting takes the same operands, and branches that end are
gone.  What the instruction forks is left open. -/
theorem exists_popped (hcode : Checked code) (hmem : instruction ∈ code)
    (hholds : (state.draft listing).HoldsVisited engine code visited)
    (hactive : engine.OnlyActive state.slots)
    (hahead : engine.Ahead state.slots instruction.address)
    {next : OneStack} (hstep : state.step instruction = some next) :
    ∃ (popped : Engine) (producers : _),
      engine.visit (state.draft listing) instruction =
        (if 0 < instruction.pushes then
            (popped.forkAt listing instruction.address).push instruction.address
          else popped.forkAt listing instruction.address,
          .ok (next.draft { listing with producers := producers })) ∧
      popped.OnlyActive (if 0 < instruction.pushes then next.slots.tail else next.slots) ∧
      popped.cursor = instruction.address ∧
      popped.bounds = engine.bounds.filter (fun bound => instruction.address < bound.2) := by
  have hindex : listing.Indexes code := hholds.tracks.indexes
  obtain ⟨taken, left, hstack, hlength, rfl⟩ := step_eq_some_iff.1 hstep
  have hdistinct : ((taken ++ left).map Expr.address).Nodup := by
    rw [← hstack]
    exact (pairwise_address hholds hactive).imp fun hlt => ne_of_gt hlt
  obtain ⟨moved, hadvance, hmoved, hcursor, hbounds⟩ := hactive.advance hahead
  rw [slots, hstack, List.map_append] at hmoved
  obtain ⟨popped, hpops, hpopped, hstays, hsame⟩ := hmoved.popSlots listing []
  rw [List.length_map, hlength, List.map_map, List.append_nil] at hpops
  have htake := Pending.takeOperands_stack listing instruction.address hdistinct
  have hset : listing.setProducers instruction.address (taken.reverse.map Expr.address) =
      .ok { listing with producers :=
        listing.producers.insert instruction.address (taken.reverse.map Expr.address) } :=
    Listing.setProducers_eq_ok_iff.2
      ⟨(hindex.contains_iff hcode).2 (List.mem_map_of_mem hmem), rfl⟩
  refine ⟨popped, listing.producers.insert instruction.address
    (taken.reverse.map Expr.address), ?_, ?_, hstays.trans hcursor, hsame.trans hbounds⟩
  · rw [Engine.visit, draft, hstack, hadvance]
    simp only [hpops, Function.comp_def, htake, hset, Draft.add]
    split
    · rfl
    · simp only [draft, List.reverse_append, List.reverse_singleton, List.singleton_append]
  · split
    · exact hpopped
    · exact hpopped

/-- An instruction that does not jump forward keeps to the active branch. -/
theorem visit_of_step_eq_some (hcode : Checked code) (hmem : instruction ∈ code)
    (hforward : instruction.isForwardJump = false)
    (hholds : (state.draft listing).HoldsVisited engine code visited)
    (hactive : engine.OnlyActive state.slots)
    (hahead : engine.Ahead state.slots instruction.address)
    {next : OneStack} (hstep : state.step instruction = some next) :
    ∃ walked producers,
      engine.visit (state.draft listing) instruction =
        (walked, .ok (next.draft { listing with producers := producers })) ∧
      walked.OnlyActive next.slots ∧ walked.cursor = instruction.address ∧
      walked.bounds = engine.bounds.filter (fun bound => instruction.address < bound.2) := by
  have hindex : listing.Indexes code := hholds.tracks.indexes
  obtain ⟨popped, producers, hvisit, hpopped, hcursor, hbounds⟩ :=
    exists_popped hcode hmem hholds hactive hahead hstep
  rw [Engine.forkAt_eq_self popped hindex hcode hmem hforward] at hvisit
  by_cases hpushes : 0 < instruction.pushes
  · rw [if_pos hpushes] at hvisit hpopped
    refine ⟨_, producers, hvisit, ?_, hcursor, (popped.bounds_push _).trans hbounds⟩
    obtain ⟨taken, left, _, _, rfl⟩ := step_eq_some_iff.1 hstep
    rw [if_pos hpushes] at hpopped ⊢
    exact hpopped.push instruction.address
  · rw [if_neg hpushes] at hvisit hpopped
    exact ⟨popped, producers, hvisit, hpopped, hcursor, hbounds⟩

/-- The walk can go through some instructions on the active branch.  They lie ahead, and every
branch lasts beyond them, or it ends at the first of them while the stack is empty. -/
structure Clear (engine : Engine) (state : OneStack) (part : List Instruction) : Prop where
  forward : ∀ instruction ∈ part, engine.cursor ≤ instruction.address
  reached : ∀ bound ∈ engine.bounds, (∀ instruction ∈ part, instruction.address < bound.2) ∨
    (part.head?.map Instruction.address = some bound.2 ∧ state.stack = [])

theorem Clear.ahead (hclear : Clear engine state (instruction :: rest))
    (hbelow : instruction.address < .last) : engine.Ahead state.slots instruction.address where
  forward := hclear.forward instruction List.mem_cons_self
  below := hbelow
  reached bound hbound := by
    rcases hclear.reached bound hbound with hlasts | ⟨hends, hempty⟩
    · exact Or.inl (hlasts instruction List.mem_cons_self)
    · refine Or.inr ⟨(Option.some.inj hends).symm, ?_⟩
      rw [slots, hempty, List.map_nil]

/-- Behind the first instruction only branches are left that last beyond all others. -/
theorem Clear.tail (hclear : Clear engine state (instruction :: rest))
    (hafter : ∀ later ∈ rest, instruction.address < later.address) {walked : Engine}
    (hcursor : walked.cursor = instruction.address)
    (hbounds : walked.bounds = engine.bounds.filter fun bound => instruction.address < bound.2)
    (next : OneStack) : Clear walked next rest where
  forward later hlater := by
    rw [hcursor]
    exact le_of_lt (hafter later hlater)
  reached bound hbound := by
    rw [hbounds, List.mem_filter, decide_eq_true_iff] at hbound
    obtain ⟨hold, hlasts⟩ := hbound
    rcases hclear.reached bound hold with hall | ⟨hends, _⟩
    · exact Or.inl fun later hlater => hall later (List.mem_cons_of_mem _ hlater)
    · exact absurd (Option.some.inj hends) (ne_of_lt hlasts)

/-- Without forward jumps lifting follows the machine up to the end or to the first missing
operand.  Branches may end where the first instruction stands. -/
theorem visitAll_cases (hcode : Checked code) (part : List Instruction)
    (hforward : ∀ instruction ∈ part, instruction.isForwardJump = false)
    (hholds : (state.draft listing).HoldsVisited engine code visited)
    (hsplit : code = visited ++ (part ++ rest)) (hactive : engine.OnlyActive state.slots)
    (hclear : Clear engine state part) :
    (∃ address stopped, ∃ id ∈ engine.bounds.map Prod.fst, state.run part = .error address ∧
      engine.visitAll (state.draft listing) part =
        (stopped, .error (.underflow id (some address)))) ∨
    ∃ final walked producers, state.run part = .ok final ∧
      engine.visitAll (state.draft listing) part =
        (walked, .ok (final.draft { listing with producers := producers })) ∧
      walked.OnlyActive final.slots ∧
      (walked.cursor = engine.cursor ∨ walked.cursor ∈ part.map Instruction.address) ∧
      walked.bounds = engine.bounds.filter fun bound =>
        part.all fun instruction => instruction.address < bound.2 := by
  induction part generalizing state listing engine visited with
  | nil =>
      refine Or.inr ⟨state, engine, listing.producers, rfl, rfl, hactive, Or.inl rfl, ?_⟩
      exact (List.filter_eq_self.2 fun _ _ => rfl).symm
  | cons instruction more ih =>
      have hmem : instruction ∈ code := by
        rw [hsplit]
        exact List.mem_append_right _ List.mem_cons_self
      have hahead := hclear.ahead (hcode.lt_last hmem)
      have hafter : ∀ later ∈ more, instruction.address < later.address := by
        have hincreasing := hcode.increasing
        rw [hsplit, List.cons_append, List.pairwise_append, List.pairwise_cons] at hincreasing
        exact fun later hlater => hincreasing.2.1.1 later (List.mem_append_left _ hlater)
      rw [run, Engine.visitAll]
      cases hstep : state.step instruction with
      | none =>
          left
          obtain ⟨stopped, id, hid, hvisit⟩ := visit_of_step_eq_none hactive hahead hstep
          exact ⟨instruction.address, stopped, id, hid, rfl, by rw [hvisit]⟩
      | some next =>
          obtain ⟨walked, producers, hvisit, hwalked, hreached, hstays⟩ :=
            visit_of_step_eq_some hcode hmem (hforward instruction List.mem_cons_self) hholds
              hactive hahead hstep
          have hmore : code = visited ++ [instruction] ++ (more ++ rest) := by
            rw [hsplit, List.append_assoc, List.singleton_append, List.cons_append]
          have hnext := (hholds.lifts hcode hsplit hvisit).1
          simp only [hvisit]
          refine (ih (fun other hother => hforward other (List.mem_cons_of_mem _ hother)) hnext
            hmore hwalked (hclear.tail hafter hreached hstays next)).imp ?_ ?_
          · rintro ⟨address, stopped, id, hid, hrun, hvisits⟩
            refine ⟨address, stopped, id, ?_, hrun, hvisits⟩
            rw [hstays] at hid
            exact (List.filter_sublist.map Prod.fst).subset hid
          · rintro ⟨final, last, noted, hrun, hvisits, hlast, hcursor, hkept⟩
            refine ⟨final, last, noted, hrun, hvisits, hlast, Or.inr ?_, ?_⟩
            · rw [List.map_cons]
              rcases hcursor with heq | hlater
              · rw [heq, hreached]
                exact List.mem_cons_self
              · exact List.mem_cons_of_mem _ hlater
            · rw [hkept, hstays, List.filter_filter]
              apply List.filter_congr
              intro bound _
              rw [List.all_cons, Bool.and_comm]

/-- Lifting a method without forward jumps lacks an operand where the machine does, or it
ends with the expressions that the machine has on its stack and has emitted. -/
theorem lift_cases (engine : Engine) {method : Method} (hvalid : method.validate = .ok ())
    (hforward : ∀ instruction ∈ method.instructions.toList,
      instruction.isForwardJump = false) :
    (∃ address, start.run method.instructions.toList = .error address ∧
      (engine.lift method).2 = .error (.underflow engine.reset.main (some address))) ∨
    ∃ final listing walked noted, start.run method.instructions.toList = .ok final ∧
      engine.Walks method listing walked (final.draft noted) ∧
      walked.OnlyActive final.slots ∧ noted.phis = ∅ := by
  have hcode := Method.validate_eq_ok_iff.1 hvalid
  obtain ⟨listing, hlisting⟩ : ∃ listing, Listing.ofMethod method = .ok listing :=
    ⟨_, Listing.ofMethod_eq_ok_iff.2 ⟨hcode, rfl⟩⟩
  have hphis := Listing.phis_of_ofMethod hlisting
  have hstart := Draft.holdsVisited_start (Listing.indexes_of_ofMethod hlisting) hphis engine.nextId
  have hfresh : (start.draft listing).HoldsVisited (.withMain engine.nextId)
      method.instructions.toList [] := hstart
  -- there is only the main branch, which lasts to the end
  have hbounds : (Engine.withMain engine.nextId).bounds = [(engine.nextId, .last)] := rfl
  have hclear : Clear (.withMain engine.nextId) start method.instructions.toList := by
    refine ⟨fun instruction _ => Nat.zero_le instruction.address.toNat, ?_⟩
    intro bound hbound
    rw [hbounds, List.mem_singleton] at hbound
    exact Or.inl fun instruction hmem => hbound ▸ hcode.lt_last hmem
  rcases visitAll_cases hcode method.instructions.toList hforward hfresh
      (List.append_nil _).symm (Engine.onlyActive_withMain _) hclear with
    ⟨address, stopped, id, hid, hrun, hvisit⟩ |
      ⟨final, walked, producers, hrun, hvisit, hwalked, _⟩
  · left
    rw [hbounds] at hid
    obtain rfl : id = engine.nextId := List.mem_singleton.1 hid
    have hstops : (Engine.withMain engine.nextId).visitAll (.start listing)
        method.instructions.toList =
          (stopped, .error (.underflow engine.nextId (some address))) := hvisit
    refine ⟨address, hrun, ?_⟩
    rw [Engine.lift, hlisting]
    simp only [Engine.reset, hstops]
    rfl
  · right
    exact ⟨final, listing, walked, _, hrun, ⟨hlisting, hstart, hvisit⟩, hwalked, hphis⟩

theorem run_cons_eq_ok {final : OneStack} {more : List Instruction}
    (hrun : state.run (instruction :: more) = .ok final) :
    ∃ next, state.step instruction = some next ∧ next.run more = .ok final := by
  rw [run] at hrun
  split at hrun
  · next next hstep => exact ⟨next, hstep, hrun⟩
  · cases hrun

/-- What lies on the stack ends up in the expressions that are emitted later. -/
theorem exists_later {final : OneStack} {part : List Instruction}
    (hrun : state.run part = .ok final) (hstack : final.stack = []) :
    ∃ later, final.emitted = state.emitted ++ later ∧
      (∀ root ∈ later, root.address ∈ part.map Instruction.address) ∧
      ∀ expr ∈ state.stack, ∃ root ∈ later, expr.ops ⊆ root.ops := by
  induction part generalizing state with
  | nil =>
      cases hrun
      refine ⟨[], (List.append_nil _).symm, by simp, ?_⟩
      rw [hstack]
      simp
  | cons instruction more ih =>
      obtain ⟨next, hstep, hmore⟩ := run_cons_eq_ok hrun
      obtain ⟨later, hemitted, haddress, habsorbed⟩ := ih hmore
      obtain ⟨taken, left, htaken, _, rfl⟩ := step_eq_some_iff.1 hstep
      have hops : ∀ expr ∈ taken, expr.ops ⊆ (Expr.op instruction.address instruction.opcode
          instruction.operand taken.reverse).ops := by
        intro expr hexpr op hop
        rw [Expr.ops_op]
        exact List.mem_cons_of_mem _ (List.mem_flatMap.2 ⟨expr, List.mem_reverse.2 hexpr, hop⟩)
      rw [htaken]
      by_cases hpushes : 0 < instruction.pushes
      · simp only [if_pos hpushes] at hemitted habsorbed
        refine ⟨later, hemitted, fun root hroot => ?_, ?_⟩
        · rw [List.map_cons]
          exact List.mem_cons_of_mem _ (haddress root hroot)
        · intro expr hexpr
          rcases List.mem_append.1 hexpr with htaken | hleft
          · obtain ⟨root, hroot, hsub⟩ := habsorbed _ List.mem_cons_self
            exact ⟨root, hroot, List.Subset.trans (hops expr htaken) hsub⟩
          · exact habsorbed expr (List.mem_cons_of_mem _ hleft)
      · simp only [if_neg hpushes] at hemitted habsorbed
        refine ⟨_ :: later, by rw [hemitted, List.append_assoc, List.singleton_append], ?_, ?_⟩
        · intro root hroot
          rw [List.map_cons]
          rcases List.mem_cons.1 hroot with rfl | hlater
          · exact List.mem_cons_self
          · exact List.mem_cons_of_mem _ (haddress root hlater)
        · intro expr hexpr
          rcases List.mem_append.1 hexpr with htaken | hleft
          · exact ⟨_, List.mem_cons_self, hops expr htaken⟩
          · obtain ⟨root, hroot, hsub⟩ := habsorbed expr hleft
            exact ⟨root, List.mem_cons_of_mem _ hroot, hsub⟩

theorem exists_back?_of_run {method : Method} {final : OneStack}
    (hrun : start.run method.instructions.toList = .ok final) (hstack : final.stack ≠ []) :
    ∃ last, method.instructions.back? = some last := by
  cases hback : method.instructions.back? with
  | some last => exact ⟨last, rfl⟩
  | none =>
      rw [Array.back?_eq_none_iff.1 hback] at hrun
      cases hrun
      exact absurd rfl hstack

theorem finish_of_stack {final : OneStack} {noted : Listing} {walked : Engine} {method : Method}
    (hstack : final.stack ≠ []) :
    (final.draft noted).finish walked method =
      .error (.inconsistent method.endAddress
        (.valuesLeft (final.stack.map Expr.address).reverse)) := by
  have hpending : (final.draft noted).pending.isEmpty = false := by
    simpa [draft] using hstack
  rw [Draft.finish, hpending, draft, List.map_map]
  rfl

end OneStack

/-- Without forward jumps lifting is what a machine with one stack does.  It lacks an operand
where the machine does; it is left with the values that the machine is left with; and
otherwise the statements are what the machine emits, and the labels are the targets of the
jumps. -/
theorem Engine.lift_eq_oneStack (engine : Engine) (method : Method)
    (hvalid : method.validate = .ok ())
    (hforward : ∀ instruction ∈ method.instructions.toList,
      instruction.isForwardJump = false) :
    (∀ address, OneStack.start.run method.instructions.toList = .error address →
      (engine.lift method).2 = .error (.underflow engine.reset.main (some address))) ∧
    (∀ stack emitted, OneStack.start.run method.instructions.toList = .ok ⟨stack, emitted⟩ →
      stack ≠ [] →
      (stack.map Expr.address).reverse.Pairwise (· < ·) ∧
        ∃ last, method.instructions.back? = some last ∧ (engine.lift method).2 =
          .error (.inconsistent last.address (.valuesLeft (stack.map Expr.address).reverse))) ∧
    ∀ emitted, OneStack.start.run method.instructions.toList = .ok ⟨[], emitted⟩ →
      ∃ lifted, (engine.lift method).2 = .ok lifted ∧
        lifted.statements.map Statement.expr = emitted ∧ lifted.phis = [] ∧
        lifted.labels.Pairwise (· < ·) ∧
        ∀ address, address ∈ lifted.labels ↔
          ∃ jump ∈ method.instructions.toList, jump.jumpTarget? = some address := by
  rcases OneStack.lift_cases engine hvalid hforward with
    ⟨address, hrun, hlift⟩ | ⟨final, listing, walked, noted, hrun, hwalks, hwalked, hphis⟩
  · simp only [hrun]
    refine ⟨?_, ?_, ?_⟩
    · rintro _ ⟨⟩
      exact hlift
    · rintro _ _ ⟨⟩
    · rintro _ ⟨⟩
  · simp only [hrun]
    refine ⟨?_, ?_, ?_⟩
    · rintro _ ⟨⟩
    · rintro stack emitted ⟨⟩ hstack
      refine ⟨List.pairwise_reverse.2 (OneStack.pairwise_address hwalks.holdsVisited hwalked), ?_⟩
      obtain ⟨last, hlast⟩ := OneStack.exists_back?_of_run hrun hstack
      have haddress : method.endAddress = last.address := by
        rw [Method.endAddress, hlast]
        rfl
      refine ⟨last, hlast, ?_⟩
      rw [hwalks.lift_eq, ← haddress]
      exact OneStack.finish_of_stack hstack
    · rintro emitted ⟨⟩
      have hlifts := hwalks.lift_of_phis rfl hphis
      rw [OneStack.draft, List.reverse_reverse] at hlifts
      exact hlifts

/-- Counts a local variable down to zero. -/
def Method.countdown : Method where
  name := "countdown"
  instructions := #[.ldarg ⟨0⟩ 0, .stloc ⟨1⟩ 0, .ldloc ⟨2⟩ 0, .ldc ⟨3⟩ 1, ⟨⟨4⟩, .sub, .absent⟩,
    .stloc ⟨5⟩ 0, .ldloc ⟨6⟩ 0, .jump ⟨7⟩ .brtrue ⟨2⟩, ⟨⟨8⟩, .retVoid, .absent⟩]

/-- The loop is lifted as the machine runs it, and its start is the only label. -/
theorem Engine.lift_eq_oneStack_countdown :
    Method.countdown.validate = .ok () ∧
      (∀ instruction ∈ Method.countdown.instructions.toList,
        instruction.isForwardJump = false) ∧
      ∃ lifted, (Engine.new.lift Method.countdown).2 = .ok lifted ∧
        lifted.statements.map Statement.expr = [
          .op ⟨1⟩ .stloc (.localVar 0) [.op ⟨0⟩ .ldarg (.argument 0) []],
          .op ⟨5⟩ .stloc (.localVar 0) [.op ⟨4⟩ .sub .absent [
            .op ⟨2⟩ .ldloc (.localVar 0) [], .op ⟨3⟩ .ldcI4 (.int32 1) []]],
          .op ⟨7⟩ .brtrue (.target ⟨2⟩) [.op ⟨6⟩ .ldloc (.localVar 0) []],
          .op ⟨8⟩ .retVoid .absent []] ∧
        lifted.phis = [] ∧ lifted.labels.Pairwise (· < ·) ∧
        ∀ address, address ∈ lifted.labels ↔
          ∃ jump ∈ Method.countdown.instructions.toList, jump.jumpTarget? = some address := by
  have hvalid : Method.countdown.validate = .ok () := by decide
  have hforward : ∀ instruction ∈ Method.countdown.instructions.toList,
      instruction.isForwardJump = false := by decide
  exact ⟨hvalid, hforward, (lift_eq_oneStack .new _ hvalid hforward).2.2 _ rfl⟩

end StackLift
