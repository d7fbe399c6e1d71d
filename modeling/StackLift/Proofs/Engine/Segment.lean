import StackLift.Proofs.Engine.Reach
import StackLift.Proofs.Engine.Resume

/-!
# Balanced use

Code that takes back all that it has put on the stack leaves no trace.  A push scatters
holes over the merging branches, and the pop that takes the value back takes the holes
back as well.  Whatever lies below is out of sight, so a pop never merges here, and no
branch is dropped in between.  The walk may go on meanwhile, as long as no live branch
ends on the way.
-/

namespace StackLift

/-! ## Words of operations -/

/-- What a word of pushes and pops, with moves in between, answers on a plain stack: each
pop gives the value of the last push that no pop has taken back.  There is no answer if
the word takes more than it has put there, leaves something behind, or does anything
else. -/
def Operation.matching : List Address → List Operation → Option (List (Option Address))
  | stack, [] => if stack.isEmpty then some [] else none
  | stack, .advance _ :: rest => (matching stack rest).map (none :: ·)
  | stack, .push value :: rest => (matching (value :: stack) rest).map (none :: ·)
  | value :: stack, .pop :: rest => (matching stack rest).map (some value :: ·)
  | _, _ :: _ => none

/-- The address at which the walk is after an operation that is no reset. -/
def Operation.walked (cursor : Address) : Operation → Address
  | .advance address => address
  | _ => cursor

namespace Engine

/-- What an operation answers. -/
def answer (engine : Engine) (listing : Listing) : Operation → Except LiftError (Option Popped)
  | .advance address => (engine.advance address).2.map fun _ => none
  | .pop => (engine.pop listing).2.2.map some
  | _ => .ok none

/-- What a word of operations makes of an engine and a listing, and all answers on the
way. -/
def performAll (engine : Engine) (listing : Listing) :
    List Operation → Engine × Listing × List (Except LiftError (Option Popped))
  | [] => (engine, listing, [])
  | operation :: rest =>
    let (performed, changed) := engine.perform listing operation
    let (last, final, answers) := performed.performAll changed rest
    (last, final, engine.answer listing operation :: answers)

/-- An operation that, if it moves the walk, moves it on and to the end of no live
branch, nor past one. -/
def Quiet (engine : Engine) : Operation → Prop
  | .advance address => engine.cursor < address ∧
      ∀ branch ∈ engine.branches, ¬ (engine.cursor < branch.stop ∧ branch.stop ≤ address)
  | _ => True

/-- Each operation of a word is quiet when it comes to it. -/
def QuietAll (engine : Engine) (listing : Listing) : List Operation → Prop
  | [] => True
  | operation :: rest => engine.Quiet operation ∧
      (engine.perform listing operation).1.QuietAll (engine.perform listing operation).2 rest

/-- The engine with the walk at another address. -/
def walkedTo (engine : Engine) (address : Address) : Engine :=
  { engine with cursor := address }

/-! ## Taking back a push -/

theorem droppedSlots_push (engine : Engine) (value : Address) {branch : Branch}
    (hbranch : branch ∈ engine.branches) :
    (engine.push value).droppedSlots { branch with slots := engine.pushedSlots value branch } =
      branch.slots := by
  have hmerging := engine.isMerging_mapSlots (engine.pushedSlots value) hbranch
    (engine.pushedSlots value branch)
  rw [← push_eq_mapSlots] at hmerging
  rw [droppedSlots, hmerging, active_push, pushedSlots]
  by_cases hactive : branch.id = engine.active
  · simp [hactive]
  · by_cases hmerges : engine.isMerging branch = true
    · simp [hactive, hmerges]
    · simp [hactive, hmerges]

/-- Dropping the topmost slots takes back a push. -/
theorem dropTop_push (engine : Engine) (value : Address) :
    (engine.push value).dropTop = engine := by
  have hslots : ∀ branch ∈ engine.branches, (engine.push value).droppedSlots
      { branch with slots := engine.pushedSlots value branch } = branch.slots :=
    fun branch hbranch => engine.droppedSlots_push value hbranch
  calc
    (engine.push value).dropTop =
        (engine.mapSlots (engine.pushedSlots value)).mapSlots
          (engine.push value).droppedSlots := by
      rw [dropTop_eq_mapSlots, push_eq_mapSlots]
    _ = engine.mapSlots fun branch => (engine.push value).droppedSlots
          { branch with slots := engine.pushedSlots value branch } := by
      rw [mapSlots, mapSlots, mapSlots, List.map_map]
      rfl
    _ = engine.mapSlots Branch.slots := mapSlots_congr hslots
    _ = engine := engine.mapSlots_slots

/-- After a push all merging branches have a hole on top. -/
theorem eq_hole_of_mem_mergingTops_push {engine : Engine} (hordered : engine.Ordered)
    {value : Address} {slot : Slot} (hslot : slot ∈ (engine.push value).mergingTops) :
    slot = .hole := by
  rw [mergingTops, push_eq_mapSlots, List.mem_filterMap] at hslot
  obtain ⟨pushed, hpushed, htop⟩ := hslot
  obtain ⟨branch, hbranch, rfl⟩ := (mem_mapSlots _).1 hpushed
  rw [isMerging_mapSlots _ _ hbranch] at htop
  split at htop
  · next hmerging =>
    have hactive := Nat.ne_of_gt (hordered.active_lt_of_isMerging hbranch hmerging)
    rw [Branch.top?, pushedSlots, if_neg hactive, if_pos hmerging, List.head?_cons] at htop
    exact (Option.some.inj htop).symm
  · cases htop

theorem top?_push {engine : Engine} (hordered : engine.Ordered) (value : Address) :
    (engine.push value).activeBranch?.bind Branch.top? = some (.value value) := by
  obtain ⟨active, hactive, hid⟩ := hordered.active_live
  have hpushed : { active with slots := engine.pushedSlots value active } ∈
      (engine.push value).branches := by
    rw [push_eq_mapSlots]
    exact (mem_mapSlots _).2 ⟨active, hactive, rfl⟩
  rw [(hordered.push value).activeBranch?_eq_some_iff.2 ⟨hpushed, hid⟩, Option.bind_some,
    Branch.top?, pushedSlots, if_pos hid, List.head?_cons]

theorem Settled.collect_eq_self {engine : Engine} (hsettled : engine.Settled) :
    engine.collect = engine := by
  apply Engine.collect_eq_self
  intro branch hbranch
  by_cases hopen : engine.cursor < branch.stop
  · exact Or.inr (Or.inl hopen)
  · by_cases hempty : branch.slots = []
    · exact Or.inl (hsettled branch hbranch (not_lt.1 hopen) hempty)
    · exact Or.inr (Or.inr hempty)

/-- A pop right after a push gives the value back and leaves nothing else behind. -/
theorem pop_push {engine : Engine} (hordered : engine.Ordered) (hsettled : engine.Settled)
    (value : Address) (listing : Listing) :
    (engine.push value).pop listing = (engine, listing, .ok ⟨.value value, none⟩) := by
  have hwaiting : (engine.push value).mergingTops.filterMap Slot.value? = [] := by
    rw [List.filterMap_eq_nil_iff]
    intro slot hslot
    rw [eq_hole_of_mem_mergingTops_push hordered hslot]
    rfl
  have htop := top?_push hordered value
  rcases (engine.push value).pop_cases listing with
    ⟨hnone, _⟩ | ⟨slot, hslot, _, heq⟩ | ⟨slot, values, hslot, hvalues, heq⟩
  · rw [htop] at hnone
    cases hnone
  · rw [htop] at hslot
    cases hslot
    rw [heq, dropTop_push]
  · rw [htop] at hslot
    cases hslot
    rw [hwaiting, List.isEmpty_nil, if_pos rfl] at hvalues
    rw [heq, hvalues, mergeValues_nil, dropTop_push, hsettled.collect_eq_self]
    rfl

/-! ## Moving on quietly -/

section Move

variable {engine : Engine} {address : Address}

theorem Quiet.closedAt_eq (hquiet : engine.Quiet (.advance address)) {branch : Branch}
    (hbranch : branch ∈ engine.branches) :
    branch.closedAt address = branch.closedAt engine.cursor := by
  obtain ⟨hcursor, hnone⟩ := hquiet
  rw [Branch.closedAt, Branch.closedAt, decide_eq_decide]
  constructor
  · intro hstop
    by_contra hopen
    exact hnone branch hbranch ⟨not_le.1 hopen, hstop⟩
  · intro hstop
    exact le_of_lt (lt_of_le_of_lt hstop hcursor)

theorem Quiet.settled (hquiet : engine.Quiet (.advance address)) (hsettled : engine.Settled) :
    (engine.walkedTo address).Settled := by
  intro branch hbranch hclosed hempty
  have heq := hquiet.closedAt_eq hbranch
  rw [Branch.closedAt, Branch.closedAt, decide_eq_decide] at heq
  exact hsettled branch hbranch (heq.1 hclosed) hempty

theorem ending?_eq_none (hstop : ∀ branch ∈ engine.branches, branch.stop ≠ address) :
    engine.ending? address = none := by
  have hnone : ∀ found : Branch → Bool,
      (engine.branches.find? fun branch => found branch && branch.stop == address) = none := by
    intro found
    rw [List.find?_eq_none]
    intro branch hbranch
    simp [hstop branch hbranch]
  have hany := hnone fun _ => true
  simp only [Bool.true_and] at hany
  simp only [ending?, hnone, hany]

/-- A quiet move changes nothing but the cursor, even if the active branch has ended
long ago. -/
theorem Quiet.advance_eq (hquiet : engine.Quiet (.advance address))
    (hsettled : engine.Settled) :
    engine.advance address = (engine.walkedTo address, .ok ()) := by
  have hcollect : ({ engine with cursor := address } : Engine).collect =
      { engine with cursor := address } := (hquiet.settled hsettled).collect_eq_self
  have hending : ({ engine with cursor := address } : Engine).ending? address = none := by
    apply ending?_eq_none
    intro branch hbranch heq
    exact hquiet.2 branch hbranch ⟨heq ▸ hquiet.1, le_of_eq heq⟩
  simp only [advance, hcollect, hending, walkedTo]
  split <;> rfl

/-- A push does the same before and after a quiet move. -/
theorem Quiet.push_eq (hquiet : engine.Quiet (.advance address)) (value : Address) :
    (engine.walkedTo address).push value = (engine.push value).walkedTo address := by
  have hslots : ∀ branch ∈ engine.branches,
      (engine.walkedTo address).pushedSlots value branch =
        engine.pushedSlots value branch := by
    intro branch hbranch
    have hmerging : (engine.walkedTo address).isMerging branch =
        engine.isMerging branch :=
      @isMerging_congr Branch.slots (engine.walkedTo address) engine rfl rfl
        (List.map_id' _).symm (fun other hother => hquiet.closedAt_eq hother) branch hbranch
        branch.slots
    rw [pushedSlots, pushedSlots, hmerging]
    rfl
  calc
    (engine.walkedTo address).push value =
        (engine.walkedTo address).mapSlots ((engine.walkedTo address).pushedSlots value) :=
      push_eq_mapSlots _ _
    _ = (engine.walkedTo address).mapSlots (engine.pushedSlots value) := mapSlots_congr hslots
    _ = (engine.mapSlots (engine.pushedSlots value)).walkedTo address := rfl
    _ = (engine.push value).walkedTo address := by rw [← push_eq_mapSlots]

end Move

/-! ## Balanced words -/

/-- The engine with values on top of what it holds, the last of them lowest. -/
def pile (engine : Engine) (stack : List Address) : Engine :=
  stack.foldr (fun value piled => piled.push value) engine

section Pile

variable {engine : Engine} (stack : List Address)

theorem Ordered.pile (hordered : engine.Ordered) : (engine.pile stack).Ordered := by
  induction stack with
  | nil => exact hordered
  | cons value rest ih => exact ih.push value

theorem Settled.pile (hsettled : engine.Settled) : (engine.pile stack).Settled := by
  induction stack with
  | nil => exact hsettled
  | cons value rest ih => exact ih.push value

theorem quiet_push_iff {value address : Address} :
    (engine.push value).Quiet (.advance address) ↔ engine.Quiet (.advance address) := by
  rw [push_eq_mapSlots]
  constructor
  · rintro ⟨hcursor, hnone⟩
    refine ⟨hcursor, fun branch hbranch hends => ?_⟩
    exact hnone _ ((mem_mapSlots _).2 ⟨branch, hbranch, rfl⟩) hends
  · rintro ⟨hcursor, hnone⟩
    refine ⟨hcursor, fun branch hbranch => ?_⟩
    obtain ⟨held, hheld, rfl⟩ := (mem_mapSlots _).1 hbranch
    exact hnone held hheld

theorem quiet_pile_iff {address : Address} :
    (engine.pile stack).Quiet (.advance address) ↔ engine.Quiet (.advance address) := by
  induction stack with
  | nil => rfl
  | cons value rest ih => exact quiet_push_iff.trans ih

/-- A quiet move goes on below the pile. -/
theorem Quiet.pile_walkedTo {address : Address} (hquiet : engine.Quiet (.advance address)) :
    (engine.walkedTo address).pile stack = (engine.pile stack).walkedTo address := by
  induction stack with
  | nil => rfl
  | cons value rest ih =>
      calc
        (engine.walkedTo address).pile (value :: rest) =
            ((engine.walkedTo address).pile rest).push value := rfl
        _ = ((engine.pile rest).walkedTo address).push value := by rw [ih]
        _ = (engine.pile (value :: rest)).walkedTo address :=
          ((quiet_pile_iff rest).2 hquiet).push_eq value

end Pile

/-- An operation comes before the rest of a word. -/
theorem performAll_cons {engine performed last : Engine} {listing changed final : Listing}
    {operation : Operation} {rest : List Operation}
    {answers : List (Except LiftError (Option Popped))}
    (hperform : engine.perform listing operation = (performed, changed))
    (hrest : performed.performAll changed rest = (last, final, answers)) :
    engine.performAll listing (operation :: rest) =
      (last, final, engine.answer listing operation :: answers) := by
  simp only [performAll, hperform, hrest]

/-- What a word does to an engine with values on top that the word takes back. -/
theorem performAll_pile {engine : Engine} (hordered : engine.Ordered)
    (hsettled : engine.Settled) (listing : Listing) {stack : List Address}
    {word : List Operation} {answers : List (Option Address)}
    (hmatching : Operation.matching stack word = some answers)
    (hquiet : (engine.pile stack).QuietAll listing word) :
    (engine.pile stack).performAll listing word =
      ({ engine with cursor := word.foldl Operation.walked engine.cursor }, listing,
        answers.map fun value => .ok (value.map fun value => ⟨.value value, none⟩)) := by
  -- the word either piles up a value, takes the topmost one back, or moves what lies
  -- below the pile
  induction word generalizing engine stack answers with
  | nil =>
      rw [Operation.matching] at hmatching
      split at hmatching
      · next hempty =>
        rw [List.isEmpty_iff] at hempty
        cases hmatching
        rw [hempty]
        rfl
      · cases hmatching
  | cons operation rest ih =>
      obtain ⟨hfirst, hrest⟩ := hquiet
      cases operation with
      | advance address =>
          obtain ⟨later, hlater, rfl⟩ := Option.map_eq_some_iff.1 hmatching
          have hbelow := (quiet_pile_iff stack).1 hfirst
          have hadvance := hfirst.advance_eq (hsettled.pile stack)
          have hperform : (engine.pile stack).perform listing (.advance address) =
              ((engine.walkedTo address).pile stack, listing) := by
            rw [perform, hadvance, hbelow.pile_walkedTo]
          rw [hperform] at hrest
          rw [performAll_cons hperform (ih (hordered.setCursor address)
            (hbelow.settled hsettled) hlater hrest), answer, hadvance]
          rfl
      | push value =>
          obtain ⟨later, hlater, rfl⟩ := Option.map_eq_some_iff.1 hmatching
          have hperform : (engine.pile stack).perform listing (.push value) =
              (engine.pile (value :: stack), listing) := rfl
          rw [performAll_cons hperform (ih hordered hsettled hlater hrest)]
          rfl
      | pop =>
          cases stack with
          | nil => cases hmatching
          | cons value below =>
              obtain ⟨later, hlater, rfl⟩ := Option.map_eq_some_iff.1 hmatching
              have hpop : (engine.pile (value :: below)).pop listing =
                  (engine.pile below, listing, .ok ⟨.value value, none⟩) :=
                pop_push (hordered.pile below) (hsettled.pile below) value listing
              have hperform : (engine.pile (value :: below)).perform listing .pop =
                  (engine.pile below, listing) := by
                rw [perform, hpop]
              rw [hperform] at hrest
              rw [performAll_cons hperform (ih hordered hsettled hlater hrest), answer, hpop]
              rfl
      | fork stop => cases stack <;> cases hmatching
      | forkAt address => cases stack <;> cases hmatching
      | reset => cases stack <;> cases hmatching

/-- However an engine has been used, a word of pushes and pops that takes back exactly
what it puts there gets back its own values and no phi set, leaves the listing alone, and
leaves the engine as it was but for the walk, which may go on quietly meanwhile. -/
theorem performAll_balanced (engine : Engine) (hreachable : Reachable anyUse engine)
    (listing : Listing) (word : List Operation) (answers : List (Option Address))
    (hmatching : Operation.matching [] word = some answers)
    (hquiet : engine.QuietAll listing word) :
    engine.performAll listing word =
      ({ engine with cursor := word.foldl Operation.walked engine.cursor }, listing,
        answers.map fun value => .ok (value.map fun value => ⟨.value value, none⟩)) :=
  performAll_pile hreachable.ordered hreachable.settled listing hmatching hquiet

/-- Beside an arm that has ended with a value, two values are put on the stack and taken
back. -/
theorem performAll_balanced_endedArm :
    endedArm.isMerging ⟨1, ⟨2⟩, some 0, [.hole, .value ⟨1⟩]⟩ = true ∧
      endedArm.performAll .empty [.push ⟨4⟩, .advance ⟨5⟩, .push ⟨5⟩, .pop, .advance ⟨7⟩, .pop] =
        ({ endedArm with cursor := ⟨7⟩ }, .empty,
          [.ok none, .ok none, .ok none, .ok (some ⟨.value ⟨5⟩, none⟩), .ok none,
            .ok (some ⟨.value ⟨4⟩, none⟩)]) := by
  have hquiet : endedArm.QuietAll .empty
      [.push ⟨4⟩, .advance ⟨5⟩, .push ⟨5⟩, .pop, .advance ⟨7⟩, .pop] := by
    simp only [QuietAll, Quiet]
    decide
  exact ⟨by decide, performAll_balanced endedArm reachable_endedArm .empty _
    [none, none, none, some ⟨5⟩, none, some ⟨4⟩] rfl hquiet⟩

end Engine

end StackLift
