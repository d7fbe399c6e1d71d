import StackLift.Proofs.Lift.Outcome
import StackLift.Proofs.Machine.Run

/-!
# Values used where no jump leads between

If no jump of a method leads behind an instruction up to one that uses its value,
then every run that comes to the use has come through the instruction, and on the
way it has executed the same instructions as the walk.  What is recorded for such a
use is therefore right on every run, whatever else the method does.
-/

namespace StackLift

/-- An address to which a jump leads. -/
def IsTarget (code : List Instruction) (address : Address) : Prop :=
  ∃ jump ∈ code, jump.jumpTarget? = some address

/-- No jump leads behind a value up to its use. -/
def Straight (code : List Instruction) (value address : Address) : Prop :=
  ∀ target, IsTarget code target → value < target → address < target

theorem Straight.mono {code : List Instruction} {value earlier later : Address}
    (hstraight : Straight code value later) (hle : earlier ≤ later) :
    Straight code value earlier :=
  fun target htarget hvalue => lt_of_le_of_lt hle (hstraight target htarget hvalue)

namespace Engine

/-- Branches end at the targets of jumps. -/
def StopsAtTargets (engine : Engine) (code : List Instruction) : Prop :=
  ∀ branch ∈ engine.branches, branch.stop = .last ∨ IsTarget code branch.stop

variable {engine : Engine} {code : List Instruction}

theorem stopsAtTargets_withMain (id : BranchId) : (withMain id).StopsAtTargets code := by
  intro branch hbranch
  rw [List.mem_singleton.1 hbranch]
  exact Or.inl rfl

namespace StopsAtTargets

theorem collect (hstops : engine.StopsAtTargets code) : engine.collect.StopsAtTargets code :=
  fun branch hbranch => hstops branch (mem_of_mem_collect hbranch)

theorem mapSlots (hstops : engine.StopsAtTargets code) (slots : Branch → List Slot) :
    (engine.mapSlots slots).StopsAtTargets code := by
  intro branch hbranch
  obtain ⟨held, hheld, rfl⟩ := (mem_mapSlots slots).1 hbranch
  exact hstops held hheld

theorem advance (hstops : engine.StopsAtTargets code) (address : Address) :
    (engine.advance address).1.StopsAtTargets code := by
  have hmoved : ({ engine with cursor := address } : Engine).collect.StopsAtTargets code :=
    StopsAtTargets.collect hstops
  apply advance_induction (motive := fun moved => moved.StopsAtTargets code) engine address hmoved
  intro id _
  exact StopsAtTargets.collect hmoved

theorem push (hstops : engine.StopsAtTargets code) (address : Address) :
    (engine.push address).StopsAtTargets code := by
  rw [push_eq_mapSlots]
  exact hstops.mapSlots _

theorem pop (hstops : engine.StopsAtTargets code) (listing : Listing) :
    (engine.pop listing).1.StopsAtTargets code := by
  have hdropped : engine.dropTop.StopsAtTargets code := by
    rw [dropTop_eq_mapSlots]
    exact hstops.mapSlots _
  exact pop_induction (motive := fun popped => popped.StopsAtTargets code) engine listing hstops
    (fun _ => hdropped) hdropped.collect

theorem popSlots (hstops : engine.StopsAtTargets code) (listing : Listing) (count : Nat)
    (taken : List Popped) :
    (engine.popSlots listing count taken).1.StopsAtTargets code := by
  induction count generalizing engine listing taken with
  | zero => exact hstops
  | succ count ih =>
      have hpop := hstops.pop listing
      rw [Engine.popSlots]
      revert hpop
      obtain ⟨popped, merged, result⟩ := engine.pop listing
      intro hpop
      cases result with
      | error error => exact hpop
      | ok slot => exact ih hpop merged (slot :: taken)

theorem forkAt (hstops : engine.StopsAtTargets code) {listing : Listing}
    (hindex : listing.Indexes code) (hcode : Checked code) (address : Address) :
    (engine.forkAt listing address).StopsAtTargets code := by
  rw [Engine.forkAt]
  cases htarget : forkTarget? listing address with
  | none => exact hstops
  | some target =>
      intro branch hbranch
      rcases List.mem_append.1 hbranch with hold | hnew
      · exact hstops branch hold
      · right
        rw [List.mem_singleton.1 hnew]
        rw [forkTarget?] at htarget
        split at htarget
        · next jump hjump =>
          split at htarget
          · have hsome := Option.eq_some_of_filter_eq_some htarget
            exact ⟨jump, ((hindex.instruction?_eq_some_iff hcode).1 hjump).1, hsome⟩
          · cases htarget
        · cases htarget

end StopsAtTargets

/-! ## The active branch from one instruction to the next -/

theorem activeSlots_push (hordered : engine.Ordered) (address : Address) :
    (engine.push address).activeSlots = .value address :: engine.activeSlots := by
  obtain ⟨branch, hbranch, hid⟩ := hordered.active_live
  have hpushed : ({ branch with slots := engine.pushedSlots address branch } : Branch) ∈
      (engine.push address).branches := by
    rw [push_eq_mapSlots, mem_mapSlots]
    exact ⟨branch, hbranch, rfl⟩
  rw [activeSlots_eq_of_mem hordered hbranch hid,
    activeSlots_eq_of_mem (hordered.push address) hpushed hid, pushedSlots, if_pos hid]

/-- After a fork the active branch is a new one, and else it is the same. -/
theorem activeSlots_forkAt (hordered : engine.Ordered) (listing : Listing) (address : Address) :
    (engine.forkAt listing address).activeSlots = engine.activeSlots ∨
      (engine.forkAt listing address).activeSlots = [] := by
  rw [forkAt]
  split
  · next stop _ =>
    right
    exact activeSlots_eq_of_mem (hordered.fork stop)
      (List.mem_append_right _ (List.mem_singleton_self _)) rfl
  · exact Or.inl rfl

/-- No branch ends where no jump leads, so the active one goes on. -/
theorem activeSlots_advance (hordered : engine.Ordered) (hstops : engine.StopsAtTargets code)
    {address : Address} (hlast : address ≠ .last) (haddress : ¬ IsTarget code address) :
    (engine.advance address).1.activeSlots = engine.activeSlots := by
  have hmoved : ({ engine with cursor := address } : Engine).collect.StopsAtTargets code :=
    StopsAtTargets.collect hstops
  have hnone : ∀ branch ∈ ({ engine with cursor := address } : Engine).collect.branches,
      branch.stop ≠ address := by
    rintro branch hbranch rfl
    rcases hmoved branch hbranch with heq | htarget
    · exact hlast heq
    · exact haddress htarget
  have hending : ({ engine with cursor := address } : Engine).collect.ending? address = none := by
    rw [ending?]
    split
    · next branch hfound =>
      have hbranch := List.mem_of_find?_eq_some hfound
      have hstop := List.find?_some hfound
      rw [Bool.and_eq_true, beq_iff_eq] at hstop
      exact absurd hstop.2 (hnone branch hbranch)
    · rw [List.find?_eq_none]
      intro branch hbranch
      simpa using hnone branch hbranch
  have hadvance : engine.advance address =
      (({ engine with cursor := address } : Engine).collect, .ok ()) := by
    rw [advance]
    simp only [hending, ite_self]
  rw [hadvance]
  exact activeSlots_collect (hordered.setCursor address)

end Engine

/-- A state of the walk over the code. -/
structure Walked (code visited : List Instruction) (engine : Engine) (draft : Draft) : Prop where
  holdsVisited : draft.HoldsVisited engine code visited
  stops : engine.StopsAtTargets code

namespace Walked

variable {code visited : List Instruction} {engine : Engine} {draft : Draft}

theorem visit (hwalked : Walked code visited engine draft) (hcode : Checked code)
    {instruction : Instruction} {rest : List Instruction}
    (hsplit : code = visited ++ instruction :: rest) {pushed : Engine} {next : Draft}
    (hvisit : engine.visit draft instruction = (pushed, .ok next)) :
    Walked code (visited ++ [instruction]) pushed next ∧
      ∃ advanced popped args,
        draft.Lifts code engine instruction advanced popped args next pushed := by
  obtain ⟨hholds, advanced, popped, args, hlifts⟩ := hwalked.holdsVisited.lifts hcode hsplit hvisit
  refine ⟨⟨hholds, ?_⟩, advanced, popped, args, hlifts⟩
  obtain ⟨merged, slots, hindex, hpops, hpushed⟩ := hlifts.pops
  have hadvanced := hwalked.stops.advance instruction.address
  rw [hlifts.advance] at hadvanced
  have hpopped := hadvanced.popSlots draft.listing instruction.pops []
  rw [hpops] at hpopped
  have hforked := hpopped.forkAt hindex hcode instruction.address
  rw [hpushed]
  split
  · exact hforked.push instruction.address
  · exact hforked

theorem visitAll (hwalked : Walked code visited engine draft) (hcode : Checked code)
    {part rest : List Instruction} (hsplit : code = visited ++ (part ++ rest)) {walked : Engine}
    {final : Draft} (hvisit : engine.visitAll draft part = (walked, .ok final)) :
    Walked code (visited ++ part) walked final := by
  induction part generalizing visited engine draft with
  | nil =>
      rw [Engine.visitAll] at hvisit
      cases hvisit
      rw [List.append_nil]
      exact hwalked
  | cons instruction more ih =>
      obtain ⟨pushed, next, hfirst, hrest⟩ := Engine.visitAll_cons_eq_ok hvisit
      rw [List.append_cons]
      refine ih (hwalked.visit hcode hsplit hfirst).1 ?_ hrest
      rw [hsplit, List.cons_append, List.append_cons]

end Walked

/-- The stack of the machine holds the values that the walk has put on the active
branch since a jump has last led there. -/
def Engine.Agrees (engine : Engine) (code : List Instruction) (stack : List Address)
    (address : Address) : Prop :=
  ∀ (depth : Nat) (value : Address), engine.activeSlots[depth]? = some (.value value) →
    Straight code value address → stack[depth]? = some value

namespace Engine.Agrees

variable {code visited : List Instruction} {engine : Engine} {draft : Draft}
  {stack : List Address}

/-- Where a jump leads, everything on the stack is from before. -/
theorem of_isTarget (htracks : engine.Tracks draft.listing code visited)
    {address : Address} (haddress : IsTarget code address)
    (hvisited : ∀ value ∈ visited.map Instruction.address, value < address) :
    engine.Agrees code stack address := by
  intro depth value hslot hstraight
  have hvalue : value < address := by
    apply hvisited
    apply htracks.produced
    exact mem_values_of_mem_activeSlots htracks.ordered (List.mem_of_getElem? hslot)
  exact absurd (hstraight address haddress hvalue) (lt_irrefl address)

/-- An instruction does the same to the stack of the machine as to the active
branch. -/
theorem lifts {instruction : Instruction} {advanced popped pushed : Engine}
    {args : List Expr} {next : Draft}
    (hlifts : draft.Lifts code engine instruction advanced popped args next pushed)
    (hagrees : advanced.Agrees code stack instruction.address) {address : Address}
    (haddress : instruction.address ≤ address) :
    pushed.Agrees code (Machine.after instruction stack) address := by
  obtain ⟨merged, slots, _, _, hpushed⟩ := hlifts.pops
  have hordered := hlifts.ordered.forkAt merged instruction.address
  -- the values that stay after the operands have been taken
  have hbelow : ∀ (depth : Nat) (value : Address),
      (popped.forkAt merged instruction.address).activeSlots[depth]? = some (.value value) →
      Straight code value address → (stack.drop instruction.pops)[depth]? = some value := by
    intro depth value hslot hstraight
    rw [List.getElem?_drop]
    apply hagrees _ _ _ (hstraight.mono haddress)
    rcases activeSlots_forkAt hlifts.ordered merged instruction.address with hsame | hempty
    · rw [hsame] at hslot
      have hlength : ((args.map Expr.producer).map Slot.value).reverse.length =
          instruction.pops := by
        rw [List.length_reverse, List.length_map, List.length_map, hlifts.length]
      rw [hlifts.activeSlots, ← hlength, List.getElem?_append_right (Nat.le_add_right _ _),
        Nat.add_sub_cancel_left]
      exact hslot
    · rw [hempty] at hslot
      cases hslot
  rw [hpushed, Machine.after]
  by_cases hpushes : 0 < instruction.pushes
  · rw [if_pos hpushes, if_pos hpushes]
    intro depth value hslot hstraight
    rw [activeSlots_push hordered] at hslot
    cases depth with
    | zero =>
        rw [List.getElem?_cons_zero, Option.some.injEq, Slot.value.injEq] at hslot
        rw [List.getElem?_cons_zero, hslot]
    | succ depth =>
        rw [List.getElem?_cons_succ] at hslot ⊢
        exact hbelow depth value hslot hstraight
  · rw [if_neg hpushes, if_neg hpushes]
    exact hbelow

end Engine.Agrees

section Run

variable {code before after : List Instruction} {instruction : Instruction}
  {listing : Listing} {id : BranchId} {walked : Engine} {draft : Draft}

theorem Engine.agrees_of_reaches (hcode : Checked code)
    (hstart : Walked code [] (.withMain id) (.start listing)) {state : Machine}
    (hreaches : Machine.Reaches code state) (hsplit : code = before ++ instruction :: after)
    (haddress : instruction.address = state.address)
    (hvisit : (Engine.withMain id).visitAll (.start listing) before = (walked, .ok draft)) :
    (walked.advance instruction.address).1.Agrees code state.stack instruction.address := by
  induction hreaches generalizing before after instruction walked draft with
  | start hfirst =>
      rw [← List.nil_append (_ :: _)] at hfirst
      obtain ⟨rfl, _⟩ := hcode.split_unique hsplit hfirst haddress
      rw [Engine.visitAll] at hvisit
      cases hvisit
      intro depth value hslot _
      have hvalue := mem_values_of_mem_activeSlots
        ((ordered_withMain id).advance instruction.address) (List.mem_of_getElem? hslot)
      rw [values_advance] at hvalue
      cases hvalue
  | step hreaches hstep ih =>
      have hwalked := hstart.visitAll hcode hsplit hvisit
      have htarget : ∀ stack, IsTarget code instruction.address →
          (walked.advance instruction.address).1.Agrees code stack instruction.address := by
        intro stack hlabel
        exact .of_isTarget (hwalked.holdsVisited.tracks.advance _) hlabel
          fun value hvalue => hcode.lt_of_visited hsplit hvalue
      cases hstep with
      | jump stack hmem hjump => exact htarget _ ⟨_, hmem, haddress ▸ hjump⟩
      | @next earlierCode rest earlier following stack hnext hflow =>
          -- at a label nothing on the stack is straight, and elsewhere no branch ends
          by_cases hlabel : IsTarget code instruction.address
          · exact htarget _ hlabel
          have hearlier : code = earlierCode ++ [earlier] ++ following :: rest := by
            rw [hnext, List.append_assoc, List.singleton_append]
          obtain ⟨rfl, rfl, rfl⟩ := hcode.split_unique hsplit hearlier haddress
          obtain ⟨engine, middle, hfirst, hlast⟩ := Engine.visitAll_append_eq_ok hvisit
          obtain ⟨pushed, next, hone, hnil⟩ := Engine.visitAll_cons_eq_ok hlast
          cases hnil
          have hmiddle := hstart.visitAll hcode hnext hfirst
          obtain ⟨hpushed, advanced, popped, args, hlifts⟩ := hmiddle.visit hcode hnext hone
          have hagrees := ih hnext rfl hfirst
          rw [hlifts.advance] at hagrees
          have hlt : earlier.address < instruction.address :=
            hcode.lt_of_visited hsplit (by simp)
          have hafter := Agrees.lifts hlifts hagrees (le_of_lt hlt)
          intro depth value hslot hstraight
          rw [activeSlots_advance hwalked.holdsVisited.tracks.ordered hwalked.stops
            (hcode.unreserved _ (by simp [hsplit])) hlabel] at hslot
          exact hafter depth value hslot hstraight

/-- Every instruction node was built when the walk met the instruction. -/
theorem Walked.exists_lifts {visited part rest : List Instruction} {engine : Engine}
    {final : Draft} (hwalked : Walked code visited engine draft) (hcode : Checked code)
    (hsplit : code = visited ++ (part ++ rest))
    (hvisit : engine.visitAll draft part = (walked, .ok final)) {node : Expr}
    (hnode : node ∈ final.nodes) (hop : node.op? = some instruction) :
    node ∈ draft.nodes ∨ ∃ before after stopped middle advanced popped args next pushed,
      part = before ++ instruction :: after ∧
      engine.visitAll draft before = (stopped, .ok middle) ∧
      middle.Lifts code stopped instruction advanced popped args next pushed ∧
      node = .op instruction.address instruction.opcode instruction.operand args := by
  induction part generalizing visited engine draft with
  | nil =>
      rw [Engine.visitAll] at hvisit
      cases hvisit
      exact Or.inl hnode
  | cons first more ih =>
      obtain ⟨pushed, next, hfirst, hrest⟩ := Engine.visitAll_cons_eq_ok hvisit
      obtain ⟨hpushed, advanced, popped, args, hlifts⟩ := hwalked.visit hcode hsplit hfirst
      have hmore : code = visited ++ [first] ++ (more ++ rest) := by
        rw [hsplit, List.cons_append, List.append_cons]
      rcases ih hpushed hmore hrest with
        hnext | ⟨before, after, stopped, middle, later, left, taken, last, done, hparts, hbefore,
          hbuilt⟩
      · rcases hlifts.nodes node hnext with rfl | hnone | hold
        · rw [Expr.op?, Option.some.injEq] at hop
          subst hop
          exact Or.inr ⟨[], more, engine, draft, advanced, popped, args, next, pushed, rfl, rfl,
            hlifts, rfl⟩
        · rw [hnone] at hop
          cases hop
        · exact Or.inl hold
      · right
        refine ⟨first :: before, after, stopped, middle, later, left, taken, last, done, ?_, ?_,
          hbuilt⟩
        · rw [hparts, List.cons_append]
        · rw [Engine.visitAll, hfirst]
          exact hbefore

end Run

theorem Expr.producer_mem_producers {expr : Expr} (hexpr : expr.WellFormed) :
    expr.producer ∈ expr.producers := by
  cases expr with
  | op address opcode operand args => exact List.mem_singleton_self _
  | phi anchor incoming =>
      rw [producer, producers, List.getLast?_eq_some_getLast hexpr.1, Option.map_some,
        Option.getD_some]
      exact List.mem_map_of_mem (List.getLast_mem hexpr.1)

/-- What is recorded for an operand is right on every run if no jump leads between
the recorded instruction and the use of its value. -/
theorem Machine.operand_of_straight {engine : Engine} {method : Method} {lifted : LiftedMethod}
    (hlifted : (engine.lift method).2 = .ok lifted) {state : Machine}
    (hreaches : Reaches method.instructions.toList state) {opcode : Opcode} {operand : Operand}
    {args : List Expr} (hnode : .op state.address opcode operand args ∈ lifted.nodes)
    {depth : Nat} {arg : Expr} (harg : args.reverse[depth]? = some arg)
    (hstraight : Straight method.instructions.toList arg.producer state.address) :
    arg.producer ∈ arg.producers ∧ state.stack[depth]? = some arg.producer := by
  obtain ⟨listing, walked, draft, hwalks, hpending, hroots⟩ := Engine.lift_eq_ok hlifted
  have hstart : Walked method.instructions.toList [] (.withMain engine.nextId)
      (.start listing) := ⟨hwalks.start, Engine.stopsAtTargets_withMain _⟩
  rw [LiftedMethod.mem_nodes hpending hroots] at hnode
  rcases hstart.exists_lifts hwalks.checked (List.append_nil _).symm hwalks.visit hnode rfl with
    hnone | ⟨before, after, stopped, middle, advanced, popped, taken, next, pushed, hsplit,
      hvisit, hlifts, heq⟩
  · cases hnone
  · rw [Expr.op.injEq] at heq
    obtain ⟨_, _, _, rfl⟩ := heq
    have hagrees := Engine.agrees_of_reaches hwalks.checked hstart hreaches hsplit rfl hvisit
    rw [hlifts.advance] at hagrees
    have hmem : arg ∈ args := List.mem_reverse.1 (List.mem_of_getElem? harg)
    refine ⟨Expr.producer_mem_producers (hlifts.wellFormed arg hmem),
      hagrees depth arg.producer ?_ hstraight⟩
    have hlt : depth < args.reverse.length := (List.getElem?_eq_some_iff.1 harg).1
    rw [hlifts.activeSlots, List.getElem?_append_left (by simpa using hlt), ← List.map_reverse,
      ← List.map_reverse, List.getElem?_map, List.getElem?_map, harg]
    rfl

end StackLift
