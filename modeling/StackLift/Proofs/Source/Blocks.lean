import StackLift.Proofs.Source.Layout

/-!
# Structured statements and their code

A statement is an instruction that leaves nothing, applied to expressions without choices,
or it is built from statements by sequence, conditional and loop.  Its code stands at
consecutive addresses.  A conditional jumps forward over what is not executed, and a loop
jumps back on its test.

The statements that lifting gives back are defined here as well.
-/

namespace StackLift

namespace Source

mutual

/-- Whether an expression is free of choices. -/
def branchFree : Source → Bool
  | .apply _ _ args => branchFreeAll args
  | .cond _ _ _ => false

/-- Whether all of some expressions are free of choices. -/
def branchFreeAll : List Source → Bool
  | [] => true
  | source :: rest => branchFree source && branchFreeAll rest

end

/-- Whether an expression fits and is free of choices. -/
def plain (source : Source) : Bool :=
  source.fits && source.branchFree

/-- The code of a test that starts at an offset, and of the jump that it decides. -/
def decision (test : Source) (opcode : Opcode) (target start : Nat) : List Instruction :=
  test.code start ++ [.jump (.ofNat (start + test.size)) opcode (.ofNat target)]

/-- The tree of the jump that a test decides. -/
def decisionTree (test : Source) (opcode : Opcode) (target start : Nat) : Expr :=
  .op (.ofNat (start + test.size)) opcode (.target (.ofNat target)) [test.tree start]

theorem branchFree_of_mem {args : List Source} (hargs : branchFreeAll args = true)
    {arg : Source} (harg : arg ∈ args) : arg.branchFree = true := by
  induction args with
  | nil => cases harg
  | cons first rest ih =>
      rw [branchFreeAll, Bool.and_eq_true] at hargs
      rcases List.mem_cons.1 harg with rfl | hmore
      · exact hargs.1
      · exact ih hargs.2 hmore

theorem plain_apply {opcode : Opcode} {operand : Operand} {args : List Source}
    (hplain : (apply opcode operand args).plain = true) :
    FitsApply opcode operand args ∧ ∀ arg ∈ args, arg.plain = true := by
  rw [plain, Bool.and_eq_true, branchFree] at hplain
  have happly := fits_apply hplain.1
  refine ⟨happly, fun arg harg => ?_⟩
  rw [plain, happly.args arg harg, branchFree_of_mem hplain.2 harg]
  rfl

theorem fits_of_plain {source : Source} (hplain : source.plain = true) :
    source.fits = true := by
  rw [plain, Bool.and_eq_true] at hplain
  exact hplain.1

/-- What holds of every operation on plain operands that have it holds of every plain
expression. -/
@[elab_as_elim]
theorem plain_induction {motive : Source → Prop}
    (apply : ∀ opcode operand args, FitsApply opcode operand args →
      (∀ arg ∈ args, motive arg) → motive (.apply opcode operand args))
    {source : Source} (hplain : source.plain = true) : motive source := by
  induction source using Source.induction with
  | apply opcode operand args hargs =>
      obtain ⟨happly, hplainArgs⟩ := plain_apply hplain
      exact apply opcode operand args happly fun arg harg => hargs arg harg (hplainArgs arg harg)
  | cond test yes no =>
      rw [plain, branchFree, Bool.and_false] at hplain
      cases hplain

theorem forall_mem_codeAll {property : Instruction → Prop} {args : List Source}
    (hargs : ∀ arg ∈ args, ∀ start, ∀ instruction ∈ arg.code start, property instruction)
    (start : Nat) : ∀ instruction ∈ codeAll args start, property instruction := by
  induction args generalizing start with
  | nil =>
      intro instruction hinstruction
      cases hinstruction
  | cons arg rest ih =>
      rw [codeAll, List.forall_mem_append]
      exact ⟨hargs arg List.mem_cons_self start,
        ih (fun other hother => hargs other (List.mem_cons_of_mem _ hother)) _⟩

/-- Every instruction of a plain expression leaves a value. -/
theorem pushes_code {source : Source} (hplain : source.plain = true) (start : Nat) :
    ∀ instruction ∈ source.code start, instruction.pushes = 1 := by
  revert start
  refine plain_induction (fun opcode operand args happly hargs start => ?_) hplain
  rw [code, List.forall_mem_append]
  refine ⟨forall_mem_codeAll hargs start, fun instruction hinstruction => ?_⟩
  rw [List.mem_singleton.1 hinstruction, happly.pushes]

end Source

/-- A structured statement. -/
inductive Block where
  /-- An instruction that leaves nothing and does not jump, such as a store, a pop or a call
  without result, with its operands. -/
  | effect (opcode : Opcode) (operand : Operand) (args : List Source)
  /-- No statement. -/
  | skip
  | seq (first second : Block)
  | ifThen (test : Source) (body : Block)
  | ifElse (test : Source) (yes no : Block)
  | doWhile (body : Block) (test : Source)
  | whileDo (test : Source) (body : Block)

namespace Block

/-- Every instruction takes its inline operand and as many operands as it has, and all
expressions are plain. -/
def fits : Block → Bool
  | .effect opcode operand args =>
    opcode.accepts operand && !opcode.isJump &&
      (Instruction.mk .zero opcode operand).pushes == 0 &&
      (Instruction.mk .zero opcode operand).pops == args.length && args.all Source.plain
  | .skip => true
  | .seq first second => first.fits && second.fits
  | .ifThen test body => test.plain && body.fits
  | .ifElse test yes no => test.plain && yes.fits && no.fits
  | .doWhile body test => body.fits && test.plain
  | .whileDo test body => test.plain && body.fits

/-- Number of instructions. -/
def size : Block → Nat
  | .effect _ _ args => Source.sizeAll args + 1
  | .skip => 0
  | .seq first second => first.size + second.size
  | .ifThen test body => test.size + 1 + body.size
  | .ifElse test yes no => test.size + 1 + yes.size + 1 + no.size
  | .doWhile body test => body.size + test.size + 1
  | .whileDo test body => 1 + body.size + test.size + 1

/-- The code of a statement that starts at an offset. -/
def code : Block → Nat → List Instruction
  | .effect opcode operand args, start =>
    Source.codeAll args start ++ [⟨.ofNat (start + Source.sizeAll args), opcode, operand⟩]
  | .skip, _ => []
  | .seq first second, start => first.code start ++ second.code (start + first.size)
  | .ifThen test body, start =>
    test.decision .brfalse (start + test.size + 1 + body.size) start ++
      body.code (start + test.size + 1)
  | .ifElse test yes no, start =>
    test.decision .brfalse (start + test.size + 1 + yes.size + 1) start ++
      (yes.code (start + test.size + 1) ++
        ([.jump (.ofNat (start + test.size + 1 + yes.size)) .br
            (.ofNat (start + test.size + 1 + yes.size + 1 + no.size))] ++
          no.code (start + test.size + 1 + yes.size + 1)))
  | .doWhile body test, start =>
    body.code start ++ test.decision .brtrue start (start + body.size)
  | .whileDo test body, start =>
    [.jump (.ofNat start) .br (.ofNat (start + 1 + body.size))] ++
      (body.code (start + 1) ++ test.decision .brtrue (start + 1) (start + 1 + body.size))

/-- The trees of the instructions that leave nothing, in the order of the code. -/
def statements : Block → Nat → List Expr
  | .effect opcode operand args, start =>
    [.op (.ofNat (start + Source.sizeAll args)) opcode operand (Source.trees args start)]
  | .skip, _ => []
  | .seq first second, start =>
    first.statements start ++ second.statements (start + first.size)
  | .ifThen test body, start =>
    [test.decisionTree .brfalse (start + test.size + 1 + body.size) start] ++
      body.statements (start + test.size + 1)
  | .ifElse test yes no, start =>
    [test.decisionTree .brfalse (start + test.size + 1 + yes.size + 1) start] ++
      (yes.statements (start + test.size + 1) ++
        ([.op (.ofNat (start + test.size + 1 + yes.size)) .br
            (.target (.ofNat (start + test.size + 1 + yes.size + 1 + no.size))) []] ++
          no.statements (start + test.size + 1 + yes.size + 1)))
  | .doWhile body test, start =>
    body.statements start ++ [test.decisionTree .brtrue start (start + body.size)]
  | .whileDo test body, start =>
    [.op (.ofNat start) .br (.target (.ofNat (start + 1 + body.size))) []] ++
      (body.statements (start + 1) ++
        [test.decisionTree .brtrue (start + 1) (start + 1 + body.size)])

/-- The code of a statement, ended by a return. -/
def program (block : Block) (start : Nat) : List Instruction :=
  block.code start ++ [⟨.ofNat (start + block.size), .retVoid, .absent⟩]

/-- The method of a statement. -/
def method (block : Block) (name : String) (start : Nat) : Method :=
  ⟨name, (block.program start).toArray⟩

/-! ## Layout -/

theorem addresses_append {left right : List Instruction} {start middle before after size : Nat}
    (hleft : left.map Instruction.address = (List.range' start before).map Address.ofNat)
    (hright : right.map Instruction.address = (List.range' middle after).map Address.ofNat)
    (hmiddle : start + before = middle) (hsize : before + after = size) :
    (left ++ right).map Instruction.address = (List.range' start size).map Address.ofNat := by
  rw [List.map_append, hleft, hright, ← List.map_append, ← hmiddle, List.range'_append_1, hsize]

theorem addresses_singleton (offset : Nat) (opcode : Opcode) (operand : Operand) :
    [Instruction.mk (.ofNat offset) opcode operand].map Instruction.address =
      (List.range' offset 1).map Address.ofNat := rfl

theorem addresses_decision (test : Source) (opcode : Opcode) (target start : Nat) :
    (test.decision opcode target start).map Instruction.address =
      (List.range' start (test.size + 1)).map Address.ofNat :=
  addresses_append (test.addresses_code start) (addresses_singleton _ _ _) rfl rfl

theorem addresses_code (block : Block) (start : Nat) :
    (block.code start).map Instruction.address =
      (List.range' start block.size).map Address.ofNat := by
  induction block generalizing start with
  | effect opcode operand args =>
      exact addresses_append
        (Source.addresses_codeAll (fun arg _ => arg.addresses_code) start)
        (addresses_singleton _ _ _) rfl rfl
  | skip => rfl
  | seq first second hfirst hsecond =>
      exact addresses_append (hfirst start) (hsecond _) rfl rfl
  | ifThen test body hbody =>
      exact addresses_append (addresses_decision _ _ _ _) (hbody _) rfl rfl
  | ifElse test yes no hyes hno =>
      have hlast := addresses_append
        (addresses_singleton (start + test.size + 1 + yes.size) .br
          (.target (.ofNat (start + test.size + 1 + yes.size + 1 + no.size))))
        (hno (start + test.size + 1 + yes.size + 1)) rfl rfl
      have hrest := addresses_append (hyes (start + test.size + 1)) hlast rfl rfl
      exact addresses_append (addresses_decision _ _ _ _) hrest rfl (by rw [size]; omega)
  | doWhile body test hbody =>
      exact addresses_append (hbody start) (addresses_decision _ _ _ _) rfl rfl
  | whileDo test body hbody =>
      have hrest := addresses_append (hbody (start + 1))
        (addresses_decision test .brtrue (start + 1) (start + 1 + body.size)) rfl rfl
      exact addresses_append (addresses_singleton _ _ _) hrest rfl (by rw [size]; omega)

@[simp]
theorem length_code (block : Block) (start : Nat) : (block.code start).length = block.size := by
  have hlength := congrArg List.length (block.addresses_code start)
  rw [List.length_map, List.length_map, List.length_range'] at hlength
  exact hlength

/-- The instruction takes its inline operand, and leads to an offset of a range if it
jumps. -/
def Lands (low high : Nat) (instruction : Instruction) : Prop :=
  instruction.opcode.accepts instruction.operand = true ∧
    ∀ target, instruction.jumpTarget? = some target →
      ∃ offset, target = .ofNat offset ∧ low ≤ offset ∧ offset ≤ high

theorem Lands.mono {low high lower higher : Nat} {instructions : List Instruction}
    (hlands : ∀ instruction ∈ instructions, Lands low high instruction) (hlow : lower ≤ low)
    (hhigh : high ≤ higher) : ∀ instruction ∈ instructions, Lands lower higher instruction := by
  intro instruction hinstruction
  refine (hlands instruction hinstruction).imp_right fun htargets target htarget => ?_
  obtain ⟨offset, heq, hstart, hstop⟩ := htargets target htarget
  exact ⟨offset, heq, by omega, by omega⟩

theorem lands_jump {address : Address} {opcode : Opcode} {low high target : Nat}
    (haccepts : opcode.accepts (.target (.ofNat target)) = true) (hlow : low ≤ target)
    (hhigh : target ≤ high) :
    ∀ instruction ∈ [Instruction.jump address opcode (.ofNat target)],
      Lands low high instruction := by
  intro instruction hinstruction
  rw [List.mem_singleton.1 hinstruction]
  refine ⟨haccepts, fun other hother => ?_⟩
  change (if opcode.isJump then some (Address.ofNat target) else none) = some other at hother
  split at hother
  · exact ⟨target, (Option.some.inj hother).symm, hlow, hhigh⟩
  · cases hother

theorem lands_of_pushes {instruction : Instruction} {low high : Nat}
    (haccepts : instruction.opcode.accepts instruction.operand = true)
    (hpushes : instruction.pushes = 1) : Lands low high instruction := by
  refine ⟨haccepts, fun target htarget => ?_⟩
  have hnone := Instruction.jumpTarget?_of_endsBlock
    (Instruction.endsBlock_of_pushes (hpushes ▸ Nat.one_ne_zero))
  rw [hnone] at htarget
  cases htarget

theorem lands_source {source : Source} (hplain : source.plain = true) (start low high : Nat) :
    ∀ instruction ∈ source.code start, Lands low high instruction := fun instruction hmem =>
  lands_of_pushes (Source.accepts_code (Source.fits_of_plain hplain) start instruction hmem)
    (Source.pushes_code hplain start instruction hmem)

theorem lands_decision {test : Source} (hplain : test.plain = true) {opcode : Opcode}
    {low high target : Nat} (haccepts : opcode.accepts (.target (.ofNat target)) = true)
    (hlow : low ≤ target) (hhigh : target ≤ high) (start : Nat) :
    ∀ instruction ∈ test.decision opcode target start, Lands low high instruction := by
  rw [Source.decision, List.forall_mem_append]
  exact ⟨lands_source hplain start low high, lands_jump haccepts hlow hhigh⟩

/-- What an instruction that leaves nothing has, if it fits. -/
structure FitsEffect (opcode : Opcode) (operand : Operand) (args : List Source) : Prop where
  accepts : opcode.accepts operand = true
  jumpTarget? : ∀ address, (Instruction.mk address opcode operand).jumpTarget? = none
  pushes : ∀ address, (Instruction.mk address opcode operand).pushes = 0
  pops : ∀ address, (Instruction.mk address opcode operand).pops = args.length
  plain : ∀ arg ∈ args, arg.plain = true

theorem fits_effect {opcode : Opcode} {operand : Operand} {args : List Source}
    (hfits : (effect opcode operand args).fits = true) : FitsEffect opcode operand args := by
  simp only [fits, Bool.and_eq_true, beq_iff_eq, Bool.not_eq_true', List.all_eq_true] at hfits
  obtain ⟨⟨⟨⟨haccepts, hjump⟩, hpushes⟩, hpops⟩, hplain⟩ := hfits
  refine ⟨haccepts, fun address => ?_, fun _ => hpushes, fun _ => hpops, hplain⟩
  cases operand <;> simp [Instruction.jumpTarget?, hjump]

/-- Jumps of a statement stay within its code or lead to its end. -/
theorem lands_code {block : Block} (hfits : block.fits = true) (start : Nat) :
    ∀ instruction ∈ block.code start, Lands start (start + block.size) instruction := by
  induction block generalizing start with
  | effect opcode operand args =>
      have heffect := fits_effect hfits
      rw [code, List.forall_mem_append]
      refine ⟨Source.forall_mem_codeAll
        (fun arg harg offset => lands_source (heffect.plain arg harg) offset _ _) start, ?_⟩
      intro instruction hinstruction
      rw [List.mem_singleton.1 hinstruction]
      refine ⟨heffect.accepts, fun target htarget => ?_⟩
      rw [heffect.jumpTarget?] at htarget
      cases htarget
  | skip =>
      intro instruction hinstruction
      cases hinstruction
  | seq first second hfirst hsecond =>
      rw [fits, Bool.and_eq_true] at hfits
      rw [code, size, List.forall_mem_append]
      exact ⟨Lands.mono (hfirst hfits.1 start) (by omega) (by omega),
        Lands.mono (hsecond hfits.2 _) (by omega) (by omega)⟩
  | ifThen test body hbody =>
      rw [fits, Bool.and_eq_true] at hfits
      rw [code, size, List.forall_mem_append]
      exact ⟨lands_decision hfits.1 rfl (by omega) (by omega) start,
        Lands.mono (hbody hfits.2 _) (by omega) (by omega)⟩
  | ifElse test yes no hyes hno =>
      rw [fits, Bool.and_eq_true, Bool.and_eq_true] at hfits
      rw [code, size, List.forall_mem_append, List.forall_mem_append, List.forall_mem_append]
      exact ⟨lands_decision hfits.1.1 rfl (by omega) (by omega) start,
        Lands.mono (hyes hfits.1.2 _) (by omega) (by omega),
        lands_jump rfl (by omega) (by omega),
        Lands.mono (hno hfits.2 _) (by omega) (by omega)⟩
  | doWhile body test hbody =>
      rw [fits, Bool.and_eq_true] at hfits
      rw [code, size, List.forall_mem_append]
      exact ⟨Lands.mono (hbody hfits.1 start) (by omega) (by omega),
        lands_decision hfits.2 rfl (by omega) (by omega) _⟩
  | whileDo test body hbody =>
      rw [fits, Bool.and_eq_true] at hfits
      rw [code, size, List.forall_mem_append, List.forall_mem_append]
      exact ⟨lands_jump rfl (by omega) (by omega),
        Lands.mono (hbody hfits.2 _) (by omega) (by omega),
        lands_decision hfits.1 rfl (by omega) (by omega) _⟩

theorem length_program (block : Block) (start : Nat) :
    (block.program start).length = block.size + 1 := by
  rw [program, List.length_append, length_code, List.length_singleton]

theorem laid_program {block : Block} (hfits : block.fits = true) {start : Nat}
    (hbound : start + block.size < Address.last.toNat) : Laid (block.program start) start := by
  have hlands : ∀ instruction ∈ block.program start,
      Lands start (start + block.size) instruction := by
    rw [program, List.forall_mem_append]
    refine ⟨lands_code hfits start, fun instruction hinstruction => ?_⟩
    rw [List.mem_singleton.1 hinstruction]
    exact ⟨rfl, fun target htarget => by cases htarget⟩
  apply Laid.of_landing
  · rw [length_program]
    exact addresses_append (block.addresses_code start) (addresses_singleton _ _ _) rfl rfl
  · rw [length_program]
    exact hbound
  · exact fun instruction hinstruction => (hlands instruction hinstruction).1
  · intro jump hjump target htarget
    obtain ⟨offset, heq, hlow, hhigh⟩ := (hlands jump hjump).2 target htarget
    rw [length_program]
    exact ⟨offset, heq, hlow, by omega⟩

end Block

end StackLift
