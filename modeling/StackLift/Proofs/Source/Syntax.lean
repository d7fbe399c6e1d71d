import Mathlib.Data.List.Range
import StackLift.Proofs.Lift.Tree

/-!
# Source expressions and their code

An expression is an operation applied to operands, or a choice between two values.
Its code stands at consecutive addresses.  Operands come before their operation.
A choice is compiled to a jump over its first arm on a false test, the first arm, a
jump over the second arm, and the second arm.

The trees that lifting gives back are defined here as well.  A choice that is not
the arm of another choice becomes one merge of all values that its arms may have.
-/

namespace StackLift

/-- The address with an offset. -/
def Address.ofNat (offset : Nat) : Address :=
  ⟨UInt32.ofNat offset⟩

theorem Address.toNat_ofNat {offset : Nat} (hoffset : offset ≤ Address.last.toNat) :
    (Address.ofNat offset).toNat = offset := by
  have hlt : offset < 2 ^ 32 := Nat.lt_succ_of_le hoffset
  exact UInt32.toNat_ofNat_of_lt hlt

theorem Address.toNat_ofNat_le (offset : Nat) : (Address.ofNat offset).toNat ≤ offset := by
  rw [Address.ofNat, Address.toNat, UInt32.toNat_ofNat']
  exact Nat.mod_le _ _

theorem Address.ofNat_toNat (address : Address) : Address.ofNat address.toNat = address := by
  rw [Address.ofNat, Address.toNat, UInt32.ofNat_toNat]

/-- An instruction that leaves a value goes on with the one after it. -/
theorem Instruction.endsBlock_of_pushes {instruction : Instruction}
    (hpushes : instruction.pushes ≠ 0) : instruction.flow.endsBlock = false := by
  obtain ⟨address, opcode, operand⟩ := instruction
  cases opcode <;> first | rfl | exact absurd rfl hpushes

theorem Instruction.jumpTarget?_of_endsBlock {instruction : Instruction}
    (hflow : instruction.flow.endsBlock = false) : instruction.jumpTarget? = none := by
  obtain ⟨address, opcode, operand⟩ := instruction
  cases opcode <;> cases operand <;> first | rfl | cases hflow

/-- An expression over operations and choices. -/
inductive Source where
  /-- An operation applied to operands.  Without operands it is a leaf. -/
  | apply (opcode : Opcode) (operand : Operand) (args : List Source)
  /-- The second expression if the first one is true, and else the third one. -/
  | cond (test yes no : Source)

namespace Source

/-- Whether the expression is a choice. -/
def isCond : Source → Bool
  | .apply _ _ _ => false
  | .cond _ _ _ => true

/-- What holds of every operation whose operands have it, and of every choice whose
parts have it, holds of every expression. -/
@[elab_as_elim]
theorem induction {motive : Source → Prop}
    (apply : ∀ opcode operand args, (∀ arg ∈ args, motive arg) →
      motive (.apply opcode operand args))
    (cond : ∀ test yes no, motive test → motive yes → motive no →
      motive (.cond test yes no)) (source : Source) : motive source :=
  @Source.rec motive (fun args => ∀ arg ∈ args, motive arg)
    (fun opcode operand args hargs => apply opcode operand args hargs)
    (fun test yes no htest hyes hno => cond test yes no htest hyes hno)
    (fun arg harg => by cases harg)
    (fun first rest hfirst hrest arg harg => by
      rcases List.mem_cons.1 harg with rfl | hmore
      · exact hfirst
      · exact hrest arg hmore)
    source

mutual

/-- Every operation takes its inline operand and as many operands as it has, and
leaves a value. -/
def fits : Source → Bool
  | .apply opcode operand args =>
    opcode.accepts operand &&
      (Instruction.mk .zero opcode operand).pushes == 1 &&
      (Instruction.mk .zero opcode operand).pops == args.length && fitAll args
  | .cond test yes no => fits test && fits yes && fits no

/-- Whether all of some expressions fit. -/
def fitAll : List Source → Bool
  | [] => true
  | source :: rest => fits source && fitAll rest

end

mutual

/-- Number of instructions. -/
def size : Source → Nat
  | .apply _ _ args => sizeAll args + 1
  | .cond test yes no => size test + size yes + size no + 2

/-- Number of instructions of several expressions. -/
def sizeAll : List Source → Nat
  | [] => 0
  | source :: rest => size source + sizeAll rest

end

mutual

/-- The code of an expression that starts at an offset. -/
def code : Source → Nat → List Instruction
  | .apply opcode operand args, start =>
    codeAll args start ++ [⟨.ofNat (start + sizeAll args), opcode, operand⟩]
  | .cond test yes no, start =>
    code test start ++
      .jump (.ofNat (start + size test)) .brfalse
        (.ofNat (start + size test + size yes + 2)) ::
      (code yes (start + size test + 1) ++
        .jump (.ofNat (start + size test + size yes + 1)) .br
          (.ofNat (start + size test + size yes + size no + 2)) ::
        code no (start + size test + size yes + 2))

/-- The code of several expressions, one after the other. -/
def codeAll : List Source → Nat → List Instruction
  | [], _ => []
  | source :: rest, start => code source start ++ codeAll rest (start + size source)

end

mutual

/-- Where the last choice ends that an expression has as its value or among its
operands. -/
def lastJoin : Source → Nat → Option Nat
  | .apply _ _ args, start => lastJoinAll args start
  | .cond test yes no, start => some (start + size (.cond test yes no))

/-- Where the last choice of several expressions ends. -/
def lastJoinAll : List Source → Nat → Option Nat
  | [], _ => none
  | source :: rest, start =>
    (lastJoinAll rest (start + size source)).or (lastJoin source start)

end

mutual

/-- The tree of an expression that is not the arm of a choice. -/
def tree : Source → Nat → Expr
  | .apply opcode operand args, start =>
    .op (.ofNat (start + sizeAll args)) opcode operand (trees args start)
  | .cond test yes no, start =>
    .phi (.ofNat (start + size (.cond test yes no)))
      ((closed yes (start + size test + 1) ++
        active no (start + size test + size yes + 2) ::
        closed no (start + size test + size yes + 2)) ++
        [active yes (start + size test + 1)])

/-- The trees of operands. -/
def trees : List Source → Nat → List Expr
  | [], _ => []
  | source :: rest, start => tree source start :: trees rest (start + size source)

/-- The value on the path without jumps, with the label of its block. -/
def active : Source → Nat → Address × Expr
  | .apply opcode operand args, start =>
    (.ofNat ((lastJoinAll args start).getD start),
      .op (.ofNat (start + sizeAll args)) opcode operand (trees args start))
  | .cond test yes _, start => active yes (start + size test + 1)

/-- The values on all other paths, with the labels of their blocks. -/
def closed : Source → Nat → List (Address × Expr)
  | .apply _ _ _, _ => []
  | .cond test yes no, start =>
    closed yes (start + size test + 1) ++
      active no (start + size test + size yes + 2) ::
      closed no (start + size test + size yes + 2)

end

/-- All values that an expression may have, with the labels of their blocks. -/
def alternatives (source : Source) (start : Nat) : List (Address × Expr) :=
  source.closed start ++ [source.active start]

theorem tree_cond (test yes no : Source) (start : Nat) :
    (cond test yes no).tree start =
      .phi (.ofNat (start + (cond test yes no).size)) ((cond test yes no).alternatives start) := by
  rw [tree, alternatives, closed, active]

/-- The instruction that computes the value on the path without jumps. -/
def value (source : Source) (start : Nat) : Address :=
  (source.active start).2.address

/-- The instructions that compute the values on all other paths. -/
def closedValues (source : Source) (start : Nat) : List Address :=
  (source.closed start).map fun entry => entry.2.address

/-- The values of operands. -/
def values : List Source → Nat → List Address
  | [], _ => []
  | source :: rest, start => source.value start :: values rest (start + source.size)

/-- The phi set of a choice. -/
def phi (source : Source) (start : Nat) : Phi :=
  ⟨(source.alternatives start).map fun entry => ⟨entry.2.address, entry.1⟩⟩

mutual

/-- The statements of the code of an expression. -/
def statements : Source → Nat → List Expr
  | .apply _ _ args, start => statementsAll args start
  | .cond test yes no, start =>
    statements test start ++
      .op (.ofNat (start + size test)) .brfalse
        (.target (.ofNat (start + size test + size yes + 2))) [tree test start] ::
      (statements yes (start + size test + 1) ++
        .op (.ofNat (start + size test + size yes + 1)) .br
          (.target (.ofNat (start + size test + size yes + size no + 2))) [] ::
        statements no (start + size test + size yes + 2))

/-- The statements of the code of several expressions. -/
def statementsAll : List Source → Nat → List Expr
  | [], _ => []
  | source :: rest, start =>
    statements source start ++ statementsAll rest (start + size source)

end

/-- The phi set of a choice with its consumer. -/
def ownJoin (source : Source) (start : Nat) : List (Address × Phi) :=
  if source.isCond then [(.ofNat (start + source.size), source.phi start)] else []

mutual

/-- The phi sets of the choices within an expression that are no arms, with their
consumers. -/
def joins : Source → Nat → List (Address × Phi)
  | .apply _ _ args, start => joinsAll args start
  | .cond test yes no, start =>
    joins test start ++ ownJoin test start ++ joins yes (start + size test + 1) ++
      joins no (start + size test + size yes + 2)

/-- The phi sets of operands, their own ones included. -/
def joinsAll : List Source → Nat → List (Address × Phi)
  | [], _ => []
  | source :: rest, start =>
    joins source start ++ ownJoin source start ++ joinsAll rest (start + size source)

end

mutual

/-- The producers of the operands of all operations within an expression. -/
def notes : Source → Nat → List (Address × List Address)
  | .apply _ _ args, start =>
    notesAll args start ++ [(.ofNat (start + sizeAll args), values args start)]
  | .cond test yes no, start =>
    notes test start ++ notes yes (start + size test + 1) ++
      notes no (start + size test + size yes + 2)

/-- The producers of the operands of all operations within several expressions. -/
def notesAll : List Source → Nat → List (Address × List Address)
  | [], _ => []
  | source :: rest, start => notes source start ++ notesAll rest (start + size source)

end

/-! ## Length and addresses of code -/

theorem size_pos (source : Source) : 0 < source.size := by
  cases source with
  | apply opcode operand args =>
      rw [size]
      exact Nat.succ_pos _
  | cond test yes no =>
      rw [size]
      exact Nat.succ_pos _

theorem sizeAll_pos {args : List Source} (hargs : args ≠ []) : 0 < sizeAll args := by
  cases args with
  | nil => exact absurd rfl hargs
  | cons arg rest =>
      rw [sizeAll]
      exact Nat.add_pos_left arg.size_pos _

theorem length_codeAll {args : List Source}
    (hargs : ∀ arg ∈ args, ∀ start, (arg.code start).length = arg.size) (start : Nat) :
    (codeAll args start).length = sizeAll args := by
  induction args generalizing start with
  | nil => rw [codeAll, sizeAll, List.length_nil]
  | cons arg rest ih =>
      rw [codeAll, sizeAll, List.length_append, hargs arg List.mem_cons_self,
        ih fun other hother => hargs other (List.mem_cons_of_mem _ hother)]

@[simp]
theorem length_code (source : Source) (start : Nat) :
    (source.code start).length = source.size := by
  induction source using Source.induction generalizing start with
  | apply opcode operand args hargs =>
      rw [code, size, List.length_append, length_codeAll hargs, List.length_singleton]
  | cond test yes no htest hyes hno =>
      rw [code, size]
      simp only [List.length_append, List.length_cons, htest, hyes, hno]
      omega

theorem length_trees (args : List Source) (start : Nat) :
    (trees args start).length = args.length := by
  induction args generalizing start with
  | nil => rw [trees, List.length_nil, List.length_nil]
  | cons arg rest ih => rw [trees, List.length_cons, List.length_cons, ih]

theorem sizeAll_singleton (source : Source) : sizeAll [source] = source.size := by
  rw [sizeAll, sizeAll, Nat.add_zero]

theorem codeAll_singleton (source : Source) (start : Nat) :
    codeAll [source] start = source.code start := by
  rw [codeAll, codeAll, List.append_nil]

theorem addresses_codeAll {args : List Source}
    (hargs : ∀ arg ∈ args, ∀ start, (arg.code start).map Instruction.address =
      (List.range' start arg.size).map Address.ofNat) (start : Nat) :
    (codeAll args start).map Instruction.address =
      (List.range' start (sizeAll args)).map Address.ofNat := by
  induction args generalizing start with
  | nil => rw [codeAll, sizeAll, List.range'_zero, List.map_nil, List.map_nil]
  | cons arg rest ih =>
      rw [codeAll, sizeAll, List.map_append, hargs arg List.mem_cons_self,
        ih fun other hother => hargs other (List.mem_cons_of_mem _ hother),
        ← List.map_append, List.range'_append_1]

theorem addresses_code (source : Source) (start : Nat) :
    (source.code start).map Instruction.address =
      (List.range' start source.size).map Address.ofNat := by
  induction source using Source.induction generalizing start with
  | apply opcode operand args hargs =>
      rw [code, size, List.map_append, addresses_codeAll hargs, ← List.range'_append_1,
        List.map_append]
      rfl
  | cond test yes no htest hyes hno =>
      have hsize : (cond test yes no).size = test.size + (1 + (yes.size + (1 + no.size))) := by
        rw [size]
        omega
      have hleave : start + test.size + yes.size + 1 = start + test.size + 1 + yes.size := by
        omega
      have hstart : start + test.size + yes.size + 2 =
          start + test.size + 1 + yes.size + 1 := by omega
      rw [hsize, code, ← List.range'_append_1, ← List.range'_append_1, ← List.range'_append_1,
        ← List.range'_append_1, List.range'_one, List.range'_one]
      simp only [List.map_append, List.map_cons, List.singleton_append, htest, hyes, hno,
        Instruction.jump, hleave, hstart]

/-! ## Jumps -/

theorem fits_of_mem_fitAll {args : List Source} (hargs : fitAll args = true) {arg : Source}
    (harg : arg ∈ args) : arg.fits = true := by
  induction args with
  | nil => cases harg
  | cons first rest ih =>
      rw [fitAll, Bool.and_eq_true] at hargs
      rcases List.mem_cons.1 harg with rfl | hmore
      · exact hargs.1
      · exact ih hargs.2 hmore

/-- What an operation that fits has. -/
structure FitsApply (opcode : Opcode) (operand : Operand) (args : List Source) : Prop where
  accepts : opcode.accepts operand = true
  pushes : ∀ address, (Instruction.mk address opcode operand).pushes = 1
  pops : ∀ address, (Instruction.mk address opcode operand).pops = args.length
  args : ∀ arg ∈ args, arg.fits = true

theorem FitsApply.endsBlock {opcode : Opcode} {operand : Operand} {args : List Source}
    (happly : FitsApply opcode operand args) (address : Address) :
    (Instruction.mk address opcode operand).flow.endsBlock = false := by
  apply Instruction.endsBlock_of_pushes
  rw [happly.pushes]
  exact Nat.one_ne_zero

theorem FitsApply.jumpTarget? {opcode : Opcode} {operand : Operand} {args : List Source}
    (happly : FitsApply opcode operand args) (address : Address) :
    (Instruction.mk address opcode operand).jumpTarget? = none :=
  Instruction.jumpTarget?_of_endsBlock (happly.endsBlock address)

theorem fits_apply {opcode : Opcode} {operand : Operand} {args : List Source}
    (hfits : (apply opcode operand args).fits = true) : FitsApply opcode operand args := by
  rw [fits, Bool.and_eq_true, Bool.and_eq_true, Bool.and_eq_true, beq_iff_eq,
    beq_iff_eq] at hfits
  obtain ⟨⟨⟨haccepts, hpushes⟩, hpops⟩, hargs⟩ := hfits
  exact ⟨haccepts, fun _ => hpushes, fun _ => hpops,
    fun arg harg => fits_of_mem_fitAll hargs harg⟩

theorem fits_cond {test yes no : Source} (hfits : (cond test yes no).fits = true) :
    test.fits = true ∧ yes.fits = true ∧ no.fits = true := by
  rw [fits, Bool.and_eq_true, Bool.and_eq_true] at hfits
  exact ⟨hfits.1.1, hfits.1.2, hfits.2⟩

/-- The jumps among some instructions lead to offsets after the first and up to the
second one. -/
def JumpsWithin (instructions : List Instruction) (start stop : Nat) : Prop :=
  ∀ jump ∈ instructions, ∀ target, jump.jumpTarget? = some target →
    ∃ offset, target = .ofNat offset ∧ start < offset ∧ offset ≤ stop

theorem JumpsWithin.mono {instructions : List Instruction} {start stop low high : Nat}
    (hjumps : JumpsWithin instructions start stop) (hlow : low ≤ start) (hhigh : stop ≤ high) :
    JumpsWithin instructions low high := by
  intro jump hjump target htarget
  obtain ⟨offset, heq, hstart, hstop⟩ := hjumps jump hjump target htarget
  exact ⟨offset, heq, Nat.lt_of_le_of_lt hlow hstart, Nat.le_trans hstop hhigh⟩

theorem JumpsWithin.toNat {instructions : List Instruction} {start stop : Nat}
    (hjumps : JumpsWithin instructions start stop) (hstop : stop ≤ Address.last.toNat)
    {jump : Instruction} (hjump : jump ∈ instructions) {target : Address}
    (htarget : jump.jumpTarget? = some target) :
    start < target.toNat ∧ target.toNat ≤ stop := by
  obtain ⟨offset, rfl, hlow, hhigh⟩ := hjumps jump hjump target htarget
  rw [Address.toNat_ofNat (Nat.le_trans hhigh hstop)]
  exact ⟨hlow, hhigh⟩

theorem JumpsWithin.append {left right : List Instruction} {start stop : Nat}
    (hleft : JumpsWithin left start stop) (hright : JumpsWithin right start stop) :
    JumpsWithin (left ++ right) start stop := by
  intro jump hjump
  rcases List.mem_append.1 hjump with hjump | hjump
  · exact hleft jump hjump
  · exact hright jump hjump

theorem jumpsWithin_codeAll {args : List Source}
    (hargs : ∀ arg ∈ args, ∀ start, JumpsWithin (arg.code start) start (start + arg.size))
    (start : Nat) : JumpsWithin (codeAll args start) start (start + sizeAll args) := by
  induction args generalizing start with
  | nil =>
      rw [codeAll]
      intro jump hjump
      cases hjump
  | cons arg rest ih =>
      have hrest := ih (fun other hother => hargs other (List.mem_cons_of_mem _ hother))
        (start + arg.size)
      rw [codeAll, sizeAll]
      apply JumpsWithin.append
      · exact (hargs arg List.mem_cons_self start).mono (Nat.le_refl _) (by omega)
      · exact hrest.mono (by omega) (by omega)

theorem jumpsWithin_singleton_of_none {instruction : Instruction}
    (hnone : instruction.jumpTarget? = none) (start stop : Nat) :
    JumpsWithin [instruction] start stop := by
  intro jump hjump target htarget
  rw [List.mem_singleton.1 hjump, hnone] at htarget
  cases htarget

theorem jumpsWithin_jump (address : Address) {opcode : Opcode} {start stop offset : Nat}
    (hstart : start < offset) (hstop : offset ≤ stop) :
    JumpsWithin [.jump address opcode (.ofNat offset)] start stop := by
  intro jump hjump target htarget
  rw [List.mem_singleton.1 hjump] at htarget
  change (if opcode.isJump then some (Address.ofNat offset) else none) = some target at htarget
  split at htarget
  · rw [Option.some.injEq] at htarget
    exact ⟨offset, htarget.symm, hstart, hstop⟩
  · cases htarget

/-- Jumps in the code of an operation do not even lead to its end. -/
theorem jumpsWithin_apply {opcode : Opcode} {operand : Operand} {args : List Source}
    (happly : FitsApply opcode operand args)
    (hargs : ∀ arg ∈ args, ∀ start, JumpsWithin (arg.code start) start (start + arg.size))
    (start : Nat) :
    JumpsWithin ((apply opcode operand args).code start) start (start + sizeAll args) := by
  rw [code]
  exact (jumpsWithin_codeAll hargs start).append
    (jumpsWithin_singleton_of_none (happly.jumpTarget? _) _ _)

/-- Jumps in the code of an expression lead forward, at most to its end. -/
theorem jumpsWithin_code {source : Source} (hfits : source.fits = true) (start : Nat) :
    JumpsWithin (source.code start) start (start + source.size) := by
  induction source using Source.induction generalizing start with
  | apply opcode operand args hargs =>
      have happly := fits_apply hfits
      have hwithin := jumpsWithin_apply happly
        (fun arg harg => hargs arg harg (happly.args arg harg)) start
      rw [size]
      exact hwithin.mono (Nat.le_refl _) (by omega)
  | cond test yes no htest hyes hno =>
      obtain ⟨hfitsTest, hfitsYes, hfitsNo⟩ := fits_cond hfits
      have hposNo := no.size_pos
      rw [code, size]
      refine ((htest hfitsTest start).mono (Nat.le_refl _) (by omega)).append ?_
      rw [← List.singleton_append]
      refine (jumpsWithin_jump _ (by omega) (by omega)).append ?_
      refine ((hyes hfitsYes _).mono (by omega) (by omega)).append ?_
      rw [← List.singleton_append]
      refine (jumpsWithin_jump _ (by omega) (by omega)).append ?_
      exact (hno hfitsNo _).mono (by omega) (by omega)

theorem accepts_codeAll {args : List Source}
    (hargs : ∀ arg ∈ args, ∀ start, ∀ instruction ∈ arg.code start,
      instruction.opcode.accepts instruction.operand = true) (start : Nat) :
    ∀ instruction ∈ codeAll args start,
      instruction.opcode.accepts instruction.operand = true := by
  induction args generalizing start with
  | nil =>
      rw [codeAll]
      intro instruction hinstruction
      cases hinstruction
  | cons arg rest ih =>
      rw [codeAll]
      intro instruction hinstruction
      rcases List.mem_append.1 hinstruction with hinstruction | hinstruction
      · exact hargs arg List.mem_cons_self start instruction hinstruction
      · exact ih (fun other hother => hargs other (List.mem_cons_of_mem _ hother)) _
          instruction hinstruction

theorem accepts_code {source : Source} (hfits : source.fits = true) (start : Nat) :
    ∀ instruction ∈ source.code start,
      instruction.opcode.accepts instruction.operand = true := by
  induction source using Source.induction generalizing start with
  | apply opcode operand args hargs =>
      have happly := fits_apply hfits
      rw [code]
      intro instruction hinstruction
      rcases List.mem_append.1 hinstruction with hinstruction | hinstruction
      · exact accepts_codeAll (fun arg harg => hargs arg harg (happly.args arg harg)) start
          instruction hinstruction
      · rw [List.mem_singleton.1 hinstruction]
        exact happly.accepts
  | cond test yes no htest hyes hno =>
      obtain ⟨hfitsTest, hfitsYes, hfitsNo⟩ := fits_cond hfits
      rw [code]
      intro instruction hinstruction
      simp only [List.mem_append, List.mem_cons] at hinstruction
      rcases hinstruction with hinstruction | rfl | hinstruction | rfl | hinstruction
      · exact htest hfitsTest _ instruction hinstruction
      · rfl
      · exact hyes hfitsYes _ instruction hinstruction
      · rfl
      · exact hno hfitsNo _ instruction hinstruction

/-! ## Alternatives -/

theorem alternatives_apply (opcode : Opcode) (operand : Operand) (args : List Source)
    (start : Nat) : (apply opcode operand args).alternatives start =
      [(apply opcode operand args).active start] := by
  rw [alternatives, closed, List.nil_append]

/-- A choice has the values of its arms. -/
theorem alternatives_cond_perm (test yes no : Source) (start : Nat) :
    ((cond test yes no).alternatives start).Perm
      (no.alternatives (start + test.size + yes.size + 2) ++
        yes.alternatives (start + test.size + 1)) := by
  rw [alternatives, alternatives, alternatives, closed, active, ← List.append_assoc]
  apply List.Perm.append_right
  exact List.perm_append_comm.trans
    ((List.perm_append_singleton _ _).symm.append_right _)

theorem mem_alternatives_cond {test yes no : Source} {start : Nat} {entry : Address × Expr} :
    entry ∈ (cond test yes no).alternatives start ↔
      entry ∈ no.alternatives (start + test.size + yes.size + 2) ∨
        entry ∈ yes.alternatives (start + test.size + 1) := by
  rw [(alternatives_cond_perm test yes no start).mem_iff, List.mem_append]

/-- Every alternative is an operation within the code. -/
theorem address_of_mem_alternatives {source : Source} {start : Nat} {entry : Address × Expr}
    (hentry : entry ∈ source.alternatives start) :
    ∃ offset, entry.2.address = .ofNat offset ∧ start ≤ offset ∧
      offset < start + source.size := by
  induction source using Source.induction generalizing start with
  | apply opcode operand args hargs =>
      rw [alternatives_apply, List.mem_singleton] at hentry
      rw [hentry, active, size]
      exact ⟨start + sizeAll args, rfl, by omega, by omega⟩
  | cond test yes no htest hyes hno =>
      rw [size]
      rcases mem_alternatives_cond.1 hentry with hentry | hentry
      · obtain ⟨offset, heq, hlow, hhigh⟩ := hno hentry
        exact ⟨offset, heq, by omega, by omega⟩
      · obtain ⟨offset, heq, hlow, hhigh⟩ := hyes hentry
        exact ⟨offset, heq, by omega, by omega⟩

/-- The last instruction of the code computes one of the alternatives. -/
theorem exists_last_alternative (source : Source) (start : Nat) :
    ∃ entry ∈ source.alternatives start,
      entry.2.address = .ofNat (start + source.size - 1) := by
  induction source using Source.induction generalizing start with
  | apply opcode operand args hargs =>
      refine ⟨_, List.mem_append_right _ (List.mem_singleton_self _), ?_⟩
      rw [active, size]
      rfl
  | cond test yes no htest hyes hno =>
      obtain ⟨entry, hentry, heq⟩ := hno (start + test.size + yes.size + 2)
      refine ⟨entry, mem_alternatives_cond.2 (Or.inl hentry), ?_⟩
      rw [heq, size]
      congr 1
      omega

end Source

end StackLift
