import StackLift.Proofs.Lift.OneStack

/-!
# Effects on variables

Straight code that loads, computes and stores is run on a stack of numbers; the
statements that it is lifted to are run by evaluating their trees.  A tree is evaluated
where it is used, so a load comes too late if its variable is stored to in between.  In
all other cases both runs end with the same variables and return the same.
-/

namespace StackLift

inductive Variable where
  | localVar (index : UInt16)
  | argument (index : UInt16)
  deriving DecidableEq

/-- What the variables of a method hold. -/
abbrev Frame := Variable → Int32

/-- How a method ends: with its variables, and with a value or none. -/
structure Ending where
  frame : Frame
  value : Option Int32

/-- The operations on variables and numbers that are given a meaning here. -/
def Opcode.isPlain : Opcode → Bool
  | .ldcI4 | .ldloc | .stloc | .ldarg | .starg | .add | .sub | .mul | .and | .or | .xor
  | .neg | .not | .pop | .ret | .retVoid => true
  | _ => false

def Opcode.isReturn : Opcode → Bool
  | .ret | .retVoid => true
  | _ => false

namespace Instruction

def reads? (instruction : Instruction) : Option Variable :=
  match instruction.opcode, instruction.operand with
  | .ldloc, .localVar index => some (.localVar index)
  | .ldarg, .argument index => some (.argument index)
  | _, _ => none

def writes? (instruction : Instruction) : Option Variable :=
  match instruction.opcode, instruction.operand with
  | .stloc, .localVar index => some (.localVar index)
  | .starg, .argument index => some (.argument index)
  | _, _ => none

/-- What an instruction that loads no variable computes from its operands, first operand
first.  Numbers have 32 bits and wrap around. -/
def compute? (instruction : Instruction) (operands : List Int32) : Option Int32 :=
  match instruction.opcode, instruction.operand, operands with
  | .ldcI4, .int32 value, [] => some value
  | .add, .absent, [left, right] => some (left + right)
  | .sub, .absent, [left, right] => some (left - right)
  | .mul, .absent, [left, right] => some (left * right)
  | .and, .absent, [left, right] => some (left &&& right)
  | .or, .absent, [left, right] => some (left ||| right)
  | .xor, .absent, [left, right] => some (left ^^^ right)
  | .neg, .absent, [value] => some (-value)
  | .not, .absent, [value] => some (~~~value)
  | _, _, _ => none

/-- What an instruction leaves on the stack: what it loads or computes. -/
def value? (instruction : Instruction) (frame : Frame) (operands : List Int32) :
    Option Int32 :=
  match instruction.reads? with
  | some var => if operands = [] then some (frame var) else none
  | none => instruction.compute? operands

/-- What an instruction that leaves no value and stores none does: it drops its operand or
ends the method. -/
def finish? (instruction : Instruction) (frame : Frame) (operands : List Int32) :
    Option (Frame ⊕ Ending) :=
  match instruction.opcode, operands with
  | .pop, [_] => some (.inl frame)
  | .ret, [value] => some (.inr ⟨frame, some value⟩)
  | .retVoid, [] => some (.inr ⟨frame, none⟩)
  | _, _ => none

/-- What an instruction that leaves no value does to the variables, unless it ends the
method. -/
def perform? (instruction : Instruction) (frame : Frame) (operands : List Int32) :
    Option (Frame ⊕ Ending) :=
  match instruction.writes? with
  | some var => operands.head?.map fun value => .inl (Function.update frame var value)
  | none => instruction.finish? frame operands

end Instruction

/-- Runs instructions one by one on a stack of numbers, topmost first.  There is no ending
if an operand is missing or the method does not return. -/
def runCode (frame : Frame) (stack : List Int32) : List Instruction → Option Ending
  | [] => none
  | instruction :: rest =>
    let operands := (stack.take instruction.pops).reverse
    let left := stack.drop instruction.pops
    if stack.length < instruction.pops then none
    else if 0 < instruction.pushes then
      match instruction.value? frame operands with
      | some value => runCode frame (value :: left) rest
      | none => none
    else
      match instruction.perform? frame operands with
      | some (.inl next) => runCode next left rest
      | some (.inr ending) => some ending
      | none => none

namespace Expr

mutual

/-- The value of a tree, its operands being evaluated from left to right. -/
def eval? (frame : Frame) : Expr → Option Int32
  | .op address opcode operand args =>
    match evalAll? frame args with
    | some operands => (Instruction.mk address opcode operand).value? frame operands
    | none => none
  | .phi _ _ => none

def evalAll? (frame : Frame) : List Expr → Option (List Int32)
  | [] => some []
  | expr :: rest =>
    match eval? frame expr with
    | some value => (evalAll? frame rest).map (value :: ·)
    | none => none

end

end Expr

/-- Runs statements in order: evaluates the operands of each, and performs it. -/
def runTrees (frame : Frame) : List Expr → Option Ending
  | [] => none
  | .phi _ _ :: _ => none
  | .op address opcode operand args :: rest =>
    match (Expr.evalAll? frame args).bind
      ((Instruction.mk address opcode operand).perform? frame) with
    | some (.inl next) => runTrees next rest
    | some (.inr ending) => some ending
    | none => none

namespace Instruction

variable {instruction : Instruction} {frame other : Frame} {operands : List Int32}

/-- A plain instruction that leaves a value computes one. -/
theorem exists_value?_eq_some (frame : Frame) (hplain : instruction.opcode.isPlain = true)
    (haccepts : instruction.opcode.accepts instruction.operand = true)
    (hpushes : 0 < instruction.pushes) (hoperands : operands.length = instruction.pops) :
    ∃ value, instruction.value? frame operands = some value := by
  obtain ⟨address, opcode, operand⟩ := instruction
  cases opcode <;> cases hplain <;> cases operand <;> cases haccepts <;> cases hpushes <;>
    rcases operands with _ | ⟨first, _ | ⟨second, _ | ⟨third, more⟩⟩⟩ <;>
      first | exact ⟨_, rfl⟩ | cases hoperands

/-- A plain instruction that leaves no value ends the method if it returns, and else
changes the variables. -/
theorem exists_perform?_eq_some (frame : Frame) (hplain : instruction.opcode.isPlain = true)
    (haccepts : instruction.opcode.accepts instruction.operand = true)
    (hpushes : ¬ 0 < instruction.pushes) (hoperands : operands.length = instruction.pops) :
    (instruction.opcode.isReturn = true ∧
      ∃ ending, instruction.perform? frame operands = some (.inr ending)) ∨
    (instruction.opcode.isReturn = false ∧
      ∃ next, instruction.perform? frame operands = some (.inl next)) := by
  obtain ⟨address, opcode, operand⟩ := instruction
  cases opcode <;> cases hplain <;> cases operand <;> cases haccepts <;>
    first
    | exact absurd (Nat.lt_succ_self 0) hpushes
    | rcases operands with _ | ⟨first, _ | ⟨second, more⟩⟩ <;>
        first
        | exact Or.inl ⟨rfl, _, rfl⟩
        | exact Or.inr ⟨rfl, _, rfl⟩
        | cases hoperands

theorem value?_congr (hsame : ∀ var, instruction.reads? = some var → frame var = other var)
    (operands : List Int32) :
    instruction.value? frame operands = instruction.value? other operands := by
  rw [value?, value?]
  cases hreads : instruction.reads? with
  | none => rfl
  | some var => simp only [hsame var hreads]

theorem eq_of_finish?_eq_some {next : Frame}
    (hfinish : instruction.finish? frame operands = some (.inl next)) : next = frame := by
  obtain ⟨address, opcode, operand⟩ := instruction
  cases opcode <;> rcases operands with _ | ⟨first, _ | ⟨second, more⟩⟩ <;> cases hfinish
  rfl

/-- Only the variable that is stored to changes. -/
theorem eq_of_perform?_eq_some {next : Frame}
    (hperform : instruction.perform? frame operands = some (.inl next)) {var : Variable}
    (hwrites : instruction.writes? ≠ some var) : next var = frame var := by
  rw [perform?] at hperform
  cases hstored : instruction.writes? with
  | none =>
      rw [hstored] at hperform
      rw [eq_of_finish?_eq_some hperform]
  | some stored =>
      rw [hstored] at hperform hwrites
      obtain ⟨value, _, hnext⟩ := Option.map_eq_some_iff.1 hperform
      cases hnext
      apply Function.update_of_ne
      rintro rfl
      exact hwrites rfl

theorem pushes_of_isReturn (hreturn : instruction.opcode.isReturn = true) :
    instruction.pushes = 0 := by
  obtain ⟨address, opcode, operand⟩ := instruction
  cases opcode <;> cases hreturn <;> rfl

end Instruction

namespace Expr

theorem evalAll?_eq_some_iff {frame : Frame} {args : List Expr} {values : List Int32} :
    evalAll? frame args = some values ↔ args.map (eval? frame) = values.map some := by
  induction args generalizing values with
  | nil =>
      rw [evalAll?, List.map_nil]
      cases values <;> simp
  | cons expr rest ih =>
      rw [evalAll?, List.map_cons]
      cases heval : eval? frame expr with
      | none => cases values <;> simp
      | some value =>
          simp only [Option.map_eq_some_iff, ih]
          cases values with
          | nil => simp
          | cons first more => simp [and_comm]

mutual

/-- The value of a tree depends on the variables that its instructions load. -/
theorem eval?_congr {frame other : Frame} : ∀ (expr : Expr),
    (∀ load ∈ expr.ops, ∀ var, load.reads? = some var →
      frame var = other var) → eval? frame expr = eval? other expr
  | .op address opcode operand args, hsame => by
      rw [ops_op] at hsame
      have hargs := evalAll?_congr args fun load hload =>
        hsame load (List.mem_cons_of_mem _ hload)
      rw [eval?, eval?, hargs]
      split
      · exact Instruction.value?_congr (hsame _ List.mem_cons_self) _
      · rfl
  | .phi anchor incoming, _ => by rw [eval?, eval?]

theorem evalAll?_congr {frame other : Frame} : ∀ (args : List Expr),
    (∀ load ∈ args.flatMap ops, ∀ var, load.reads? = some var →
      frame var = other var) → evalAll? frame args = evalAll? other args
  | [], _ => by rw [evalAll?, evalAll?]
  | expr :: rest, hsame => by
      rw [List.flatMap_cons] at hsame
      rw [evalAll?, evalAll?,
        eval?_congr expr fun load hload => hsame load (List.mem_append_left _ hload),
        evalAll?_congr rest fun load hload => hsame load (List.mem_append_right _ hload)]

end

end Expr

/-! ## Both runs end alike -/

/-- No variable is stored to between a load and the root of the tree in which the load
stands. -/
def Undisturbed (roots : List Expr) (code : List Instruction) : Prop :=
  ∀ root ∈ roots, ∀ load ∈ root.ops, ∀ store ∈ code,
    load.address < store.address → store.address < root.address →
      load.reads?.isSome = true → store.writes? ≠ load.reads?

instance (roots : List Expr) (code : List Instruction) : Decidable (Undisturbed roots code) :=
  inferInstanceAs (Decidable (∀ root ∈ roots, ∀ load ∈ root.ops, ∀ store ∈ code,
    load.address < store.address → store.address < root.address →
      load.reads?.isSome = true → store.writes? ≠ load.reads?))

/-- The code is plain and returns at its end, and only there. -/
structure PlainReturning (code : List Instruction) : Prop where
  plain : ∀ instruction ∈ code, instruction.opcode.isPlain = true
  fitting : ∀ instruction ∈ code, instruction.opcode.accepts instruction.operand = true
  increasing : code.Pairwise fun earlier later => earlier.address < later.address
  last : ∃ body final, code = body ++ [final] ∧ final.opcode.isReturn = true ∧
    ∀ instruction ∈ body, instruction.opcode.isReturn = false

theorem PlainReturning.tail {instruction : Instruction} {more : List Instruction}
    (hreturns : PlainReturning (instruction :: more))
    (hgoes : instruction.opcode.isReturn = false) : PlainReturning more where
  plain other hother := hreturns.plain other (List.mem_cons_of_mem _ hother)
  fitting other hother := hreturns.fitting other (List.mem_cons_of_mem _ hother)
  increasing := (List.pairwise_cons.1 hreturns.increasing).2
  last := by
    obtain ⟨body, final, hsplit, hfinal, hbody⟩ := hreturns.last
    cases body with
    | nil =>
        cases hsplit
        rw [hfinal] at hgoes
        cases hgoes
    | cons first body =>
        rw [List.cons_append, List.cons.injEq] at hsplit
        exact ⟨body, final, hsplit.2, hfinal,
          fun other hother => hbody other (List.mem_cons_of_mem _ hother)⟩

theorem runCode_of_value? {instruction : Instruction} {frame : Frame} {taken left : List Int32}
    {value : Int32} {more : List Instruction} (hlength : taken.length = instruction.pops)
    (hpushes : 0 < instruction.pushes)
    (hvalue : instruction.value? frame taken.reverse = some value) :
    runCode frame (taken ++ left) (instruction :: more) = runCode frame (value :: left) more := by
  have henough : ¬ (taken ++ left).length < instruction.pops := by
    rw [List.length_append]
    omega
  rw [runCode, if_neg henough, if_pos hpushes, ← hlength, List.take_left, List.drop_left, hvalue]

theorem runCode_of_perform? {instruction : Instruction} {frame : Frame} {taken left : List Int32}
    {done : Frame ⊕ Ending} {more : List Instruction} (hlength : taken.length = instruction.pops)
    (hpushes : ¬ 0 < instruction.pushes)
    (hperform : instruction.perform? frame taken.reverse = some done) :
    runCode frame (taken ++ left) (instruction :: more) =
      done.elim (fun next => runCode next left more) some := by
  have henough : ¬ (taken ++ left).length < instruction.pops := by
    rw [List.length_append]
    omega
  rw [runCode, if_neg henough, if_neg hpushes, ← hlength, List.take_left, List.drop_left,
    hperform]
  cases done <;> rfl

/-- The expressions on a stack were built before the given code and have the given values. -/
structure Holds (frame : Frame) (stack : List Expr) (values : List Int32)
    (code : List Instruction) : Prop where
  values : stack.map (Expr.eval? frame) = values.map some
  before : ∀ expr ∈ stack, ∀ load ∈ expr.ops, ∀ instruction ∈ code,
    load.address < instruction.address

namespace Holds

variable {instruction : Instruction} {frame changed : Frame} {taken left : List Expr}
  {values operands rest : List Int32} {more : List Instruction}

/-- The operands are evaluated in their order, and the rest of the stack is kept. -/
theorem split (hholds : Holds frame (taken ++ left) values (instruction :: more)) :
    ∃ operands rest, values = operands ++ rest ∧ operands.length = taken.length ∧
      Expr.evalAll? frame taken.reverse = some operands.reverse ∧
      Holds frame left rest (instruction :: more) := by
  have hvalues := hholds.values
  rw [List.map_append, eq_comm, List.map_eq_append_iff] at hvalues
  obtain ⟨operands, rest, rfl, hoperands, hrest⟩ := hvalues
  refine ⟨operands, rest, rfl, ?_, ?_, hrest.symm,
    fun expr hexpr => hholds.before expr (List.mem_append_right _ hexpr)⟩
  · simpa using congrArg List.length hoperands
  · rw [Expr.evalAll?_eq_some_iff, List.map_reverse, List.map_reverse, hoperands]

/-- The tree of an instruction has the value that the instruction leaves. -/
theorem push (hholds : Holds frame left rest (instruction :: more))
    (hafter : ∀ other ∈ more, instruction.address < other.address)
    (hbefore : ∀ expr ∈ taken, ∀ load ∈ expr.ops, load.address < instruction.address)
    (hoperands : Expr.evalAll? frame taken.reverse = some operands) {value : Int32}
    (hvalue : instruction.value? frame operands = some value) :
    Holds frame (.op instruction.address instruction.opcode instruction.operand
      taken.reverse :: left) (value :: rest) more where
  values := by
    rw [List.map_cons, List.map_cons, hholds.values, Expr.eval?, hoperands]
    simp only [hvalue]
  before := by
    intro expr hexpr load hload other hother
    rcases List.mem_cons.1 hexpr with rfl | hleft
    · rw [Expr.ops_op] at hload
      rcases List.mem_cons.1 hload with rfl | hload
      · exact hafter other hother
      · obtain ⟨operand, hoperand, hload⟩ := List.mem_flatMap.1 hload
        exact lt_trans (hbefore operand (List.mem_reverse.1 hoperand) load hload)
          (hafter other hother)
    · exact hholds.before expr hleft load hload other (List.mem_cons_of_mem _ hother)

/-- What stays on the stack goes into a later tree, so a store leaves it alone. -/
theorem perform (hholds : Holds frame left rest (instruction :: more))
    (hafter : ∀ other ∈ more, instruction.address < other.address) {later : List Expr}
    (hundisturbed : Undisturbed later (instruction :: more))
    (haddress : ∀ root ∈ later, root.address ∈ more.map Instruction.address)
    (habsorbed : ∀ expr ∈ left, ∃ root ∈ later, expr.ops ⊆ root.ops)
    (hperform : instruction.perform? frame operands = some (.inl changed)) :
    Holds changed left rest more where
  values := by
    rw [← hholds.values]
    apply List.map_congr_left
    intro expr hexpr
    refine Expr.eval?_congr expr fun load hload var hreads =>
      Instruction.eq_of_perform?_eq_some hperform ?_
    obtain ⟨root, hroot, hsub⟩ := habsorbed expr hexpr
    obtain ⟨other, hother, hsame⟩ := List.mem_map.1 (haddress root hroot)
    rw [← hreads]
    exact hundisturbed root hroot load (hsub hload) instruction List.mem_cons_self
      (hholds.before expr hexpr load hload instruction List.mem_cons_self)
      (hsame ▸ hafter other hother) (by rw [hreads]; rfl)
  before expr hexpr load hload other hother :=
    hholds.before expr hexpr load hload other (List.mem_cons_of_mem _ hother)

end Holds

theorem Undisturbed.mono {roots later : List Expr} {code more : List Instruction}
    (hundisturbed : Undisturbed roots code) (hroots : later ⊆ roots) (hcode : more ⊆ code) :
    Undisturbed later more :=
  fun root hroot load hload store hstore =>
    hundisturbed root (hroots hroot) load hload store (hcode hstore)

/-- The run over the rest of the code ends as the run over the statements to come, if the
expressions on the stack have the values that are there. -/
theorem runCode_eq_runTrees {part : List Instruction} {state : OneStack} {later : List Expr}
    {frame : Frame} {values : List Int32}
    (hrun : state.run part = .ok ⟨[], state.emitted ++ later⟩)
    (hholds : Holds frame state.stack values part) (hreturns : PlainReturning part)
    (hundisturbed : Undisturbed later part) :
    ∃ ending, runCode frame values part = some ending ∧
      runTrees frame later = some ending := by
  induction part generalizing state later frame values with
  | nil =>
      obtain ⟨body, final, hsplit, _⟩ := hreturns.last
      simp at hsplit
  | cons instruction more ih =>
      obtain ⟨next, hstep, hmore⟩ := OneStack.run_cons_eq_ok hrun
      obtain ⟨taken, left, hstack, hlength, rfl⟩ := OneStack.step_eq_some_iff.1 hstep
      rw [hstack] at hholds
      obtain ⟨operands, rest, rfl, hsame, hoperands, hleft⟩ := hholds.split
      have hcount : operands.length = instruction.pops := hsame.trans hlength
      have hreverse : operands.reverse.length = instruction.pops := by
        rw [List.length_reverse, hcount]
      have hplain := hreturns.plain instruction List.mem_cons_self
      have hfitting := hreturns.fitting instruction List.mem_cons_self
      have hafter := (List.pairwise_cons.1 hreturns.increasing).1
      by_cases hpushes : 0 < instruction.pushes
      · have hgoes : instruction.opcode.isReturn = false := by
          by_contra hreturn
          rw [Instruction.pushes_of_isReturn (by simpa using hreturn)] at hpushes
          exact Nat.lt_irrefl 0 hpushes
        obtain ⟨value, hvalue⟩ :=
          Instruction.exists_value?_eq_some frame hplain hfitting hpushes hreverse
        rw [if_pos hpushes] at hmore
        rw [runCode_of_value? hcount hpushes hvalue]
        refine ih hmore (hleft.push hafter ?_ hoperands hvalue) (hreturns.tail hgoes)
          (hundisturbed.mono (List.Subset.refl _) (List.subset_cons_self _ _))
        exact fun expr hexpr load hload => hholds.before expr
          (List.mem_append_left _ hexpr) load hload instruction List.mem_cons_self
      · rw [if_neg hpushes] at hmore
        obtain ⟨still, hstill, haddress, habsorbed⟩ := OneStack.exists_later hmore rfl
        obtain rfl : later = _ :: still := by
          simpa only [List.append_assoc, List.append_cancel_left_eq, List.singleton_append]
            using hstill
        rw [List.append_cons _ _ still] at hmore
        rcases Instruction.exists_perform?_eq_some frame hplain hfitting hpushes hreverse with
          ⟨_, ending, hperform⟩ | ⟨hgoes, changed, hperform⟩
        · refine ⟨ending, ?_, ?_⟩
          · rw [runCode_of_perform? hcount hpushes hperform]
            rfl
          · rw [runTrees, hoperands, Option.bind_some, hperform]
        · rw [runCode_of_perform? hcount hpushes hperform, runTrees, hoperands,
            Option.bind_some, hperform]
          have hlater := hundisturbed.mono (List.subset_cons_self _ _) (List.Subset.refl _)
          refine ih hmore ?_ (hreturns.tail hgoes)
            (hlater.mono (List.Subset.refl _) (List.subset_cons_self _ _))
          exact hleft.perform hafter hlater haddress habsorbed hperform

theorem Instruction.isForwardJump_of_isPlain {instruction : Instruction}
    (hplain : instruction.opcode.isPlain = true) : instruction.isForwardJump = false := by
  obtain ⟨address, opcode, operand⟩ := instruction
  cases opcode <;> cases hplain <;> cases operand <;> rfl

/-- The statements of a method without forward jumps are what the machine emits. -/
theorem OneStack.run_of_lift_eq_ok {engine : Engine} {method : Method} {lifted : LiftedMethod}
    (hforward : ∀ instruction ∈ method.instructions.toList, instruction.isForwardJump = false)
    (hlifted : (engine.lift method).2 = .ok lifted) :
    start.run method.instructions.toList =
      .ok ⟨[], lifted.statements.map Statement.expr⟩ := by
  obtain ⟨_, _, _, hlisted, _⟩ := Engine.exists_walks_of_lift_eq_ok hlifted
  have hvalid := Method.validate_eq_ok_iff.2 hlisted.checked
  rcases lift_cases engine hvalid hforward with
    ⟨address, _, hlift⟩ | ⟨⟨stack, emitted⟩, listing, walked, noted, hrun, hwalks, _, _⟩
  · rw [hlift] at hlifted
    cases hlifted
  · rw [hwalks.lift_eq] at hlifted
    by_cases hstack : stack = []
    · subst hstack
      rw [hwalks.holdsVisited.finish_of_pending rfl method] at hlifted
      cases hlifted
      rw [hrun, map_expr_placeLabels, draft, List.reverse_reverse]
    · rw [finish_of_stack hstack] at hlifted
      cases hlifted

/-- Straight code and the statements that it is lifted to end with the same variables and
return the same, if no variable is stored to between a load and the statement that uses
it. -/
theorem Engine.runTrees_of_lift_eq_ok (engine : Engine) (method : Method)
    (lifted : LiftedMethod) (hlifted : (engine.lift method).2 = .ok lifted)
    (hplain : ∀ instruction ∈ method.instructions.toList, instruction.opcode.isPlain = true)
    (hlast : ∃ body final, method.instructions.toList = body ++ [final] ∧
      final.opcode.isReturn = true ∧
      ∀ instruction ∈ body, instruction.opcode.isReturn = false)
    (hundisturbed : Undisturbed (lifted.statements.map Statement.expr)
      method.instructions.toList)
    (frame : Frame) :
    ∃ ending, runCode frame [] method.instructions.toList = some ending ∧
      runTrees frame (lifted.statements.map Statement.expr) = some ending := by
  obtain ⟨_, _, _, hwalks, _⟩ := Engine.exists_walks_of_lift_eq_ok hlifted
  have hrun := OneStack.run_of_lift_eq_ok
    (fun instruction hmem => Instruction.isForwardJump_of_isPlain (hplain instruction hmem))
    hlifted
  have hreturns : PlainReturning method.instructions.toList :=
    ⟨hplain, hwalks.checked.fitting, hwalks.checked.increasing, hlast⟩
  exact runCode_eq_runTrees hrun ⟨rfl, by simp [OneStack.start]⟩ hreturns hundisturbed

/-- Stores to another variable while a load waits for its use. -/
def Method.sum : Method where
  name := "sum"
  instructions := #[.ldloc ⟨0⟩ 0, .ldc ⟨1⟩ 5, .stloc ⟨2⟩ 1, .ldloc ⟨3⟩ 1,
    ⟨⟨4⟩, .add, .absent⟩, ⟨⟨5⟩, .ret, .absent⟩]

def LiftedMethod.sum : LiftedMethod where
  name := "sum"
  statements := [
    ⟨⟨2⟩, [], .op ⟨2⟩ .stloc (.localVar 1) [.op ⟨1⟩ .ldcI4 (.int32 5) []]⟩,
    ⟨⟨5⟩, [], .op ⟨5⟩ .ret .absent [.op ⟨4⟩ .add .absent [
      .op ⟨0⟩ .ldloc (.localVar 0) [], .op ⟨3⟩ .ldloc (.localVar 1) []]]⟩]
  phis := []
  labels := []

/-- The first variable is loaded before and added after the store to the second one. -/
theorem Engine.runTrees_of_lift_sum :
    (Engine.new.lift Method.sum).2 = .ok LiftedMethod.sum ∧
      Undisturbed (LiftedMethod.sum.statements.map Statement.expr)
        Method.sum.instructions.toList ∧
      ((runCode (fun _ => 7) [] Method.sum.instructions.toList).map Ending.value =
        some (some 12)) ∧
      ∃ ending, runCode (fun _ => 7) [] Method.sum.instructions.toList = some ending ∧
        runTrees (fun _ => 7) (LiftedMethod.sum.statements.map Statement.expr) =
          some ending := by
  have hlifted : (Engine.new.lift Method.sum).2 = .ok LiftedMethod.sum := by cbv
  have hundisturbed : Undisturbed (LiftedMethod.sum.statements.map Statement.expr)
      Method.sum.instructions.toList := by decide
  exact ⟨hlifted, hundisturbed, by decide, runTrees_of_lift_eq_ok .new _ _ hlifted (by decide)
    ⟨Method.sum.instructions.toList.dropLast, ⟨⟨5⟩, .ret, .absent⟩, rfl, rfl, by decide⟩
    hundisturbed _⟩

/-- Moves a variable to another one and sets it, but stores in the other order. -/
def Method.lateLoad : Method where
  name := "lateLoad"
  instructions := #[.ldloc ⟨0⟩ 0, .ldc ⟨1⟩ 5, .stloc ⟨2⟩ 0, .stloc ⟨3⟩ 1,
    ⟨⟨4⟩, .retVoid, .absent⟩]

def LiftedMethod.lateLoad : LiftedMethod where
  name := "lateLoad"
  statements := [
    ⟨⟨2⟩, [], .op ⟨2⟩ .stloc (.localVar 0) [.op ⟨1⟩ .ldcI4 (.int32 5) []]⟩,
    ⟨⟨3⟩, [], .op ⟨3⟩ .stloc (.localVar 1) [.op ⟨0⟩ .ldloc (.localVar 0) []]⟩,
    ⟨⟨4⟩, [], .op ⟨4⟩ .retVoid .absent []⟩]
  phis := []
  labels := []

/-- A load that is used behind a store to its variable comes too late: the code moves the
old value, the statements move the new one. -/
theorem Engine.runTrees_ne_runCode_lateLoad :
    (Engine.new.lift Method.lateLoad).2 = .ok LiftedMethod.lateLoad ∧
      (∀ instruction ∈ Method.lateLoad.instructions.toList,
        instruction.opcode.isPlain = true) ∧
      (∃ body final, Method.lateLoad.instructions.toList = body ++ [final] ∧
        final.opcode.isReturn = true ∧
        ∀ instruction ∈ body, instruction.opcode.isReturn = false) ∧
      ((runCode (fun _ => 0) [] Method.lateLoad.instructions.toList).map
        fun ending => ending.frame (.localVar 1)) = some 0 ∧
      ((runTrees (fun _ => 0) (LiftedMethod.lateLoad.statements.map Statement.expr)).map
        fun ending => ending.frame (.localVar 1)) = some 5 :=
  ⟨by cbv, by decide, ⟨Method.lateLoad.instructions.toList.dropLast,
    ⟨⟨4⟩, .retVoid, .absent⟩, rfl, rfl, by decide⟩, by decide, by decide⟩

end StackLift
