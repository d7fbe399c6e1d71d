import StackLift.Proofs.Lift.Outcome
import StackLift.Proofs.Source.Rebuild

/-!
# Lifting compiled assignments

A program assigns expressions to local variables, one after the other, and returns.
Lifting its code succeeds and rebuilds every expression.
-/

namespace StackLift

/-- Assignments to local variables, the first one first. -/
abbrev Program := List (UInt16 × Source)

namespace Program

/-- Every expression fits. -/
def Fits (program : Program) : Prop :=
  ∀ assignment ∈ program, assignment.2.fits = true

instance (program : Program) : Decidable program.Fits :=
  inferInstanceAs (Decidable (∀ assignment ∈ program, assignment.2.fits = true))

/-- Number of instructions. -/
def size : Program → Nat
  | [] => 1
  | (_, source) :: rest => source.size + 1 + size rest

/-- The code of a program that starts at an offset. -/
def code : Program → Nat → List Instruction
  | [], start => [⟨.ofNat start, .retVoid, .absent⟩]
  | (index, source) :: rest, start =>
    (source.code start ++ [.stloc (.ofNat (start + source.size)) index]) ++
      code rest (start + source.size + 1)

/-- The statements of a program: those of each expression, its assignment, and the
return at the end. -/
def statements : Program → Nat → List Expr
  | [], start => [.op (.ofNat start) .retVoid .absent []]
  | (index, source) :: rest, start =>
    source.statements start ++
      .op (.ofNat (start + source.size)) .stloc (.localVar index) [source.tree start] ::
      statements rest (start + source.size + 1)

/-- The phi sets of a program with their consumers. -/
def joins : Program → Nat → List (Address × Phi)
  | [], _ => []
  | (_, source) :: rest, start =>
    source.joins start ++ source.ownJoin start ++ joins rest (start + source.size + 1)

/-- The method of a program. -/
def method (program : Program) (name : String) (start : Nat) : Method :=
  ⟨name, (program.code start).toArray⟩

/-! ## Layout -/

theorem size_pos (program : Program) : 0 < program.size := by
  cases program with
  | nil => exact Nat.one_pos
  | cons assignment rest => exact Nat.add_pos_left (Nat.succ_pos _) _

theorem length_code (program : Program) (start : Nat) :
    (program.code start).length = program.size := by
  induction program generalizing start with
  | nil => rfl
  | cons assignment rest ih =>
      rw [code, size, List.length_append, List.length_append, Source.length_code,
        List.length_singleton, ih]

theorem addresses_code (program : Program) (start : Nat) :
    (program.code start).map Instruction.address =
      (List.range' start program.size).map Address.ofNat := by
  induction program generalizing start with
  | nil => rfl
  | cons assignment rest ih =>
      rw [code, size, List.map_append, List.map_append, Source.addresses_code, ih,
        Nat.add_assoc, ← List.range'_append_1, ← List.range'_append_1, List.map_append,
        List.map_append]
      rfl

theorem accepts_code {program : Program} (hfits : program.Fits) (start : Nat) :
    ∀ instruction ∈ program.code start,
      instruction.opcode.accepts instruction.operand = true := by
  induction program generalizing start with
  | nil =>
      intro instruction hinstruction
      rw [List.mem_singleton.1 hinstruction]
      rfl
  | cons assignment rest ih =>
      intro instruction hinstruction
      rw [code, List.mem_append, List.mem_append] at hinstruction
      rcases hinstruction with (hinstruction | hinstruction) | hinstruction
      · exact Source.accepts_code (hfits assignment List.mem_cons_self) start instruction
          hinstruction
      · rw [List.mem_singleton.1 hinstruction]
        rfl
      · exact ih (fun other hother => hfits other (List.mem_cons_of_mem _ hother)) _
          instruction hinstruction

/-- Jumps of an assignment lead to the assignment itself at most. -/
theorem jumpsWithin_assignment {source : Source} (hfits : source.fits = true) (index : UInt16)
    (start : Nat) :
    Source.JumpsWithin (source.code start ++ [.stloc (.ofNat (start + source.size)) index])
      start (start + source.size) :=
  (Source.jumpsWithin_code hfits start).append (Source.jumpsWithin_singleton_of_none rfl _ _)

theorem jumpsWithin_code {program : Program} (hfits : program.Fits) (start : Nat) :
    Source.JumpsWithin (program.code start) start (start + program.size - 1) := by
  induction program generalizing start with
  | nil => exact Source.jumpsWithin_singleton_of_none rfl _ _
  | cons assignment rest ih =>
      have hpos := size_pos rest
      rw [code, size]
      refine ((jumpsWithin_assignment (hfits assignment List.mem_cons_self) _ start).mono
        (Nat.le_refl _) (by omega)).append ?_
      exact (ih (fun other hother => hfits other (List.mem_cons_of_mem _ hother)) _).mono
        (by omega) (by omega)

theorem laid_code {program : Program} (hfits : program.Fits) {start : Nat}
    (hbound : start + program.size ≤ Address.last.toNat) : Laid (program.code start) start := by
  apply Laid.of_landing
  · rw [length_code, addresses_code]
  · rw [length_code]
    exact hbound
  · exact accepts_code hfits start
  · intro jump hjump target htarget
    obtain ⟨offset, heq, hlow, hhigh⟩ := jumpsWithin_code hfits start jump hjump target htarget
    have hpos := program.size_pos
    rw [length_code]
    exact ⟨offset, heq, by omega, by omega⟩

/-! ## Lifting -/

section Run

variable {instructions before after : List Instruction} {first start : Nat}
  {engine base : Engine} {draft : Draft}

/-- An instruction that leaves nothing and does not jump becomes a statement. -/
theorem run_statement (hlaid : Laid instructions first) {args : List Source}
    {instruction : Instruction} (hfits : ∀ arg ∈ args, arg.fits = true)
    (hstart : Start instructions first before (Source.codeAll args start ++ [instruction]) after
      start Address.last.toNat engine base draft)
    (haddress : instruction.address = .ofNat (start + Source.sizeAll args))
    (hpops : instruction.pops = args.length) (hpushes : instruction.pushes = 0)
    (htarget : instruction.jumpTarget? = none) :
    ∃ final nextId,
      engine.visitAll draft (Source.codeAll args start ++ [instruction]) =
        (base.moveTo (.ofNat (start + Source.sizeAll args)) nextId, .ok final) ∧
      final.Gains draft instructions start [] (Source.joinsAll args start) []
        (Source.statementsAll args start ++ [Source.instructionTree instruction args start]) := by
  have hmem : instruction ∈ instructions :=
    hstart.site.mem_of_mem (List.mem_append_right _ (List.mem_singleton_self _))
  have hstop := hstart.site.stop_le
  have hbound := hlaid.bound
  rw [List.length_append, Source.length_codeAll fun other _ => other.length_code,
    List.length_singleton] at hstop
  have hnone : ¬ 0 < instruction.pushes := by
    rw [hpushes]
    exact Nat.lt_irrefl 0
  obtain ⟨final, nextId, hvisit, hgains⟩ := Source.run_instruction hlaid
    (fun arg harg => Source.runs hlaid arg (hfits arg harg)) hfits hstart haddress hpops
    (fun target heq => by
      rw [htarget] at heq
      cases heq)
    (fun listing hindex => Source.forkTarget?_of_jumpTarget? hlaid hindex hmem htarget)
    (by omega)
  rw [if_neg hnone] at hvisit
  rw [if_neg hnone, if_neg hnone] at hgains
  exact ⟨final, nextId, hvisit,
    hgains.congr (fun entry hentry => by cases hentry) (fun _ => Iff.rfl) (.refl _) rfl⟩

/-- An assignment is a statement with the tree of its expression. -/
theorem run_assignment (hlaid : Laid instructions first) {source : Source} {index : UInt16}
    (hfits : source.fits = true)
    (hstart : Start instructions first before
      (source.code start ++ [.stloc (.ofNat (start + source.size)) index]) after start
      Address.last.toNat engine base draft) :
    ∃ final nextId,
      engine.visitAll draft
          (source.code start ++ [.stloc (.ofNat (start + source.size)) index]) =
        (base.moveTo (.ofNat (start + source.size)) nextId, .ok final) ∧
      final.Gains draft instructions start [] (source.joins start ++ source.ownJoin start) []
        (source.statements start ++
          [.op (.ofNat (start + source.size)) .stloc (.localVar index) [source.tree start]]) := by
  have hrun := @run_statement instructions before after first start engine base draft hlaid
    [source] (.stloc (.ofNat (start + source.size)) index)
    (fun arg harg => List.mem_singleton.1 harg ▸ hfits)
  rw [Source.codeAll_singleton, Source.sizeAll_singleton] at hrun
  simp only [Source.joinsAll, Source.statementsAll, Source.instructionTree, Source.trees,
    List.append_nil] at hrun
  exact hrun hstart rfl rfl rfl rfl

/-- A program is lifted one assignment after the other. -/
theorem run (hlaid : Laid instructions first) {program : Program} (hfits : program.Fits)
    (hstart : Start instructions first before (program.code start) after start
      Address.last.toNat engine base draft) :
    ∃ final nextId,
      engine.visitAll draft (program.code start) =
        (base.moveTo (.ofNat (start + program.size - 1)) nextId, .ok final) ∧
      final.Gains draft instructions start [] (program.joins start) []
        (program.statements start) := by
  induction program generalizing before start engine base draft with
  | nil =>
      have hrun := @run_statement instructions before after first start engine base draft
        hlaid [] ⟨.ofNat start, .retVoid, .absent⟩ (fun arg harg => by cases harg)
      simp only [Source.codeAll, Source.sizeAll, Source.joinsAll, Source.statementsAll,
        Source.instructionTree, Source.trees, List.nil_append] at hrun
      exact hrun hstart rfl rfl rfl rfl
  | cons assignment rest ih =>
      obtain ⟨index, source⟩ := assignment
      have hsource : source.fits = true := hfits _ List.mem_cons_self
      have hrest : Fits rest := fun other hother => hfits other (List.mem_cons_of_mem _ hother)
      have hstop := hstart.site.stop_le
      have hbound := hlaid.bound
      have hpos := size_pos rest
      rw [length_code, size] at hstop
      have hsite := hstart.site
      rw [code] at hsite
      have hlength : (source.code start ++
          [Instruction.stloc (.ofNat (start + source.size)) index]).length = source.size + 1 := by
        rw [List.length_append, Source.length_code, List.length_singleton]
      have hfirst : Start instructions first before
          (source.code start ++ [.stloc (.ofNat (start + source.size)) index])
          (code rest (start + source.size + 1) ++ after) start Address.last.toNat engine base
          draft := by
        refine ⟨hsite.initial ?_, hstart.holdsVisited, hstart.advance, hstart.ready, hstart.links⟩
        intro jump hjump target htarget
        have hrange := (jumpsWithin_code hrest _).toNat (by omega) hjump htarget
        omega
      obtain ⟨middle, middleId, hvisit, hgains⟩ := run_assignment hlaid hsource hfirst
      have hnext := hfirst.next hlaid hvisit (by rw [Address.toNat_ofNat (by omega)]; omega)
        (Nat.le_add_right _ _) (by omega) (by omega) hgains.follows.links rfl
        (hsite.final fun jump hjump target htarget => by
          have hrange := (jumpsWithin_assignment hsource index start).toNat (by omega) hjump
            htarget
          omega)
      rw [hlength, ← Nat.add_assoc] at hnext
      obtain ⟨final, nextId, hvisitRest, hgainsRest⟩ := ih hrest hnext
      have hend : start + source.size + 1 + size rest - 1 =
          start + size ((index, source) :: rest) - 1 := by
        rw [size]
        omega
      rw [hend, Engine.moveTo_moveTo] at hvisitRest
      refine ⟨final, nextId, ?_, ?_⟩
      · rw [code, Engine.visitAll_append hvisit]
        exact hvisitRest
      · have hall := hgains.trans hgainsRest (by omega) (fun entry hentry => by cases hentry)
        rw [joins, statements, List.append_cons]
        exact hall

end Run

/-- The walk of a method starts on an empty main branch. -/
theorem start_code {program : Program} {start : Nat}
    (hbound : start + program.size ≤ Address.last.toNat) {listing : Listing}
    (hindex : listing.Indexes (program.code start)) (hphis : listing.phis = ∅)
    (hlinks : listing.links = ∅) (id : BranchId) :
    Start (program.code start) start [] (program.code start) [] start Address.last.toNat
      (.withMain id) ((Engine.withMain id).moveTo (.ofNat start) (id + 1)) (.start listing) := by
  have hholds := Draft.holdsVisited_start hindex hphis id
  have hpos := program.size_pos
  have htoNat : (Address.ofNat start).toNat = start := Address.toNat_ofNat (by omega)
  have hadvance := Engine.advance_ready (Engine.ready_withMain id)
    (show (Address.ofNat start).toNat < _ by omega)
  have htracks := hholds.tracks.advance (.ofNat start)
  rw [hadvance] at htracks
  have hready := (Engine.ready_withMain id).moveTo (Nat.zero_le _) htracks.ordered
    htracks.settled
  rw [htoNat] at hready
  refine ⟨⟨(List.append_nil _).symm, rfl, ?_⟩, hholds, hadvance, hready, ?_⟩
  · intro jump hjump
    cases hjump
  · intro address hlinked
    refine absurd ?_ hlinked
    change listing.links.getD address [] = []
    rw [hlinks]
    rfl

/-- The draft of a whole program: nothing waits, and the statements and phi sets are
those of the program. -/
structure Rebuilt (program : Program) (start : Nat) (draft : Draft) : Prop where
  pending : draft.pending = []
  roots : draft.roots.reverse = program.statements start
  phis : ∀ entry, entry ∈ draft.listing.phiTable ↔ entry ∈ program.joins start

theorem exists_walks (engine : Engine) {program : Program} (name : String) {start : Nat}
    (hfits : program.Fits) (hbound : start + program.size ≤ Address.last.toNat) :
    ∃ listing walked draft, engine.Walks (program.method name start) listing walked draft ∧
      program.Rebuilt start draft := by
  have hlaid := laid_code hfits hbound
  obtain ⟨listing, hlisting, hindex, hphis, hlinks⟩ : ∃ listing,
      Listing.ofMethod (program.method name start) = .ok listing ∧
      listing.Indexes (program.code start) ∧ listing.phis = ∅ ∧ listing.links = ∅ :=
    ⟨_, Listing.ofMethod_eq_ok_iff.2 ⟨hlaid.checked, rfl⟩, ⟨rfl, rfl, rfl⟩, rfl, rfl⟩
  have hstart := start_code hbound hindex hphis hlinks engine.nextId
  obtain ⟨final, nextId, hvisit, hgains⟩ := run hlaid hfits hstart
  refine ⟨listing, _, final, ⟨hlisting, hstart.holdsVisited, hvisit⟩,
    List.perm_nil.1 hgains.pending, ?_, ?_⟩
  · rw [hgains.roots]
    simp [Draft.start]
  · intro entry
    have hnone : (Draft.start listing).listing.phiAt? entry.1 = none := by
      rw [Draft.start, Listing.phiAt?, hphis]
      rfl
    rw [Listing.phiTable, Std.TreeMap.mem_toList_iff_getElem?_eq_some, ← Listing.phiAt?,
      hgains.follows.phis, hnone]
    simp

/-- Lifting the code of a program rebuilds it.  The statements are the jumps of its
choices, its assignments and the return, each with the trees of its operands, and the
phi sets are those of the choices that are no arms. -/
theorem lift_method (engine : Engine) (program : Program) (name : String) (start : Nat)
    (hfits : program.Fits) (hbound : start + program.size ≤ Address.last.toNat) :
    ∃ lifted, (engine.lift (program.method name start)).2 = .ok lifted ∧
      lifted.statements.map Statement.expr = program.statements start ∧
      ∀ entry, entry ∈ lifted.phis ↔ entry ∈ program.joins start := by
  obtain ⟨listing, walked, draft, hwalks, hrebuilt⟩ := exists_walks engine name hfits hbound
  have hlift := congrArg Prod.snd hwalks.lift_eq
  refine ⟨_, hlift.trans (hwalks.holdsVisited.finish_of_pending hrebuilt.pending _), ?_,
    hrebuilt.phis⟩
  rw [map_expr_placeLabels, hrebuilt.roots]

/-- `x0 = ((a0 ? a1 : a2) ? (a3 ? 1 : 2) : 3) + 4; x1 = a5`. -/
def nested : Program :=
  let argument index : Source := .apply .ldarg (.argument index) []
  let constant value : Source := .apply .ldcI4 (.int32 value) []
  [(0, .apply .add .absent
      [.cond (.cond (argument 0) (argument 1) (argument 2))
          (.cond (argument 3) (constant 1) (constant 2)) (constant 3), constant 4]),
    (1, argument 5)]

theorem lift_method_nested :
    nested.Fits ∧ 16 + nested.size ≤ Address.last.toNat ∧
      ∃ lifted, (Engine.new.lift (nested.method "nested" 16)).2 = .ok lifted ∧
        lifted.statements.map Statement.expr = nested.statements 16 ∧
        ∀ entry, entry ∈ lifted.phis ↔ entry ∈ nested.joins 16 := by
  have hfits : nested.Fits := by decide
  have hbound : 16 + nested.size ≤ Address.last.toNat := by decide
  exact ⟨hfits, hbound, lift_method .new nested "nested" 16 hfits hbound⟩

end Program

end StackLift
