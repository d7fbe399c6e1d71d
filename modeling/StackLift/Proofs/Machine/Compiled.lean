import StackLift.Proofs.Machine.Run
import StackLift.Proofs.Source.Assignments

/-!
# Runs of compiled programs

Wherever control is in the code of a program, the stack holds the values of the
operands that have been computed so far, each of them one of the values that the
operand may have.  This is kept by every step, so all producers that lifting records
for a compiled program are right on every run.
-/

namespace StackLift

/-- Where control goes from an instruction at an offset. -/
def Instruction.Leads (instruction : Instruction) (offset : Nat) (target : Address) : Prop :=
  instruction.flow.goesOn = true ∧ target = .ofNat (offset + 1) ∨
    instruction.jumpTarget? = some target

/-- A step executes the instruction at an offset and goes where it leads. -/
theorem Laid.leads_of_step {code : List Instruction} {first offset : Nat} {state next : Machine}
    {instruction : Instruction} (hlaid : Laid code first) (hstep : Machine.Step code state next)
    (hmem : instruction ∈ code) (hoffset : instruction.address = .ofNat offset)
    (hbound : offset ≤ Address.last.toNat) (haddress : state.address = .ofNat offset) :
    next.stack = Machine.after instruction state.stack ∧
      instruction.Leads offset next.address := by
  rw [← hoffset] at haddress
  cases hstep with
  | jump stack hjump htarget =>
      rw [← hlaid.checked.eq_of_address_eq hjump hmem haddress]
      exact ⟨rfl, Or.inr htarget⟩
  | @next before rest same following stack hsplit hflow =>
      have hsame : same ∈ code := by simp [hsplit]
      obtain rfl := hlaid.checked.eq_of_address_eq hsame hmem haddress
      have hlength : code.length = before.length + (rest.length + 2) := by
        rw [hsplit, List.length_append, List.length_cons, List.length_cons]
      have hlast := hlaid.bound
      have hplace : offset = first + before.length :=
        Laid.ofNat_inj hbound (by omega) (hoffset.symm.trans (hlaid.address_of_split hsplit))
      rw [List.append_cons] at hsplit
      refine ⟨rfl, Or.inl ⟨hflow, ?_⟩⟩
      rw [hlaid.address_of_split hsplit, hplace, List.length_append, List.length_singleton,
        Nat.add_assoc]

/-- Each value on the stack is one of those that may be there. -/
def Matches (stack : List Address) (columns : List (List Address)) : Prop :=
  List.Forall₂ (fun value column => value ∈ column) stack columns

theorem Matches.append {above below : List Address} {first second : List (List Address)}
    (hfirst : Matches above first) (hsecond : Matches below second) :
    Matches (above ++ below) (first ++ second) :=
  List.rel_append hfirst hsecond

theorem Matches.mono {stack narrow wide : List Address} (hmatches : Matches stack [narrow])
    (hsubset : ∀ value ∈ narrow, value ∈ wide) : Matches stack [wide] := by
  cases hmatches with
  | cons hvalue hnil => exact .cons (hsubset _ hvalue) (by cases hnil; exact .nil)

theorem Matches.split {stack : List Address} {first second : List (List Address)}
    (hmatches : Matches stack (first ++ second)) :
    ∃ above below, stack = above ++ below ∧ Matches above first ∧ Matches below second :=
  ⟨_, _, (List.take_append_drop first.length stack).symm,
    List.forall₂_take_append stack first second hmatches,
    List.forall₂_drop_append stack first second hmatches⟩

namespace Source

/-- The instructions that compute the values an expression may have. -/
def results (source : Source) (start : Nat) : List Address :=
  (source.alternatives start).map fun entry => entry.2.address

theorem producers_tree (source : Source) (start : Nat) :
    (source.tree start).producers = source.results start := by
  cases source with
  | apply opcode operand args =>
      rw [tree, results, alternatives_apply, active]
      rfl
  | cond test yes no =>
      rw [tree_cond, results]
      rfl

theorem mem_results_cond {test yes no : Source} {start : Nat} {value : Address} :
    value ∈ (cond test yes no).results start ↔
      value ∈ yes.results (start + test.size + 1) ∨
        value ∈ no.results (start + test.size + yes.size + 2) := by
  have hperm := (alternatives_cond_perm test yes no start).map fun entry => entry.2.address
  rw [results, hperm.mem_iff, List.map_append, List.mem_append, or_comm]
  rfl

/-- What may be on the stack for operands that have been computed, topmost first. -/
def columns (args : List Source) (start : Nat) : List (List Address) :=
  ((trees args start).map Expr.producers).reverse

theorem sizeAll_append (left right : List Source) :
    sizeAll (left ++ right) = sizeAll left + sizeAll right := by
  induction left with
  | nil => rw [List.nil_append, sizeAll, Nat.zero_add]
  | cons arg rest ih => rw [List.cons_append, sizeAll, sizeAll, ih, Nat.add_assoc]

theorem trees_append (left right : List Source) (start : Nat) :
    trees (left ++ right) start = trees left start ++ trees right (start + sizeAll left) := by
  induction left generalizing start with
  | nil => rw [List.nil_append, trees, sizeAll, List.nil_append, Nat.add_zero]
  | cons arg rest ih =>
      rw [List.cons_append, trees, trees, ih, sizeAll, List.cons_append, Nat.add_assoc]

theorem codeAll_append (left right : List Source) (start : Nat) :
    codeAll (left ++ right) start =
      codeAll left start ++ codeAll right (start + sizeAll left) := by
  induction left generalizing start with
  | nil => rw [List.nil_append, codeAll, sizeAll, List.nil_append, Nat.add_zero]
  | cons arg rest ih =>
      rw [List.cons_append, codeAll, codeAll, ih, sizeAll, List.append_assoc, Nat.add_assoc]

theorem columns_concat (args : List Source) (arg : Source) (start : Nat) :
    columns (args ++ [arg]) start =
      arg.results (start + sizeAll args) :: columns args start := by
  rw [columns, trees_append, trees, trees, List.map_append, List.reverse_append,
    List.map_singleton, producers_tree]
  rfl

/-- Where control may be in the code of an expression: an offset, the node of the
instruction there, and what may be on the stack above what was there at the start. -/
inductive Inside : Source → Nat → Nat → Expr → List (List Address) → Prop where
  | operation (opcode : Opcode) (operand : Operand) (args : List Source) (start : Nat) :
    Inside (apply opcode operand args) start (start + sizeAll args)
      (.op (.ofNat (start + sizeAll args)) opcode operand (trees args start))
      (columns args start)
  | operand {opcode : Opcode} {operand : Operand} {before after : List Source} {arg : Source}
    {start offset : Nat} {node : Expr} {above : List (List Address)}
    (hinside : Inside arg (start + sizeAll before) offset node above) :
    Inside (apply opcode operand (before ++ arg :: after)) start offset node
      (above ++ columns before start)
  | test {test yes no : Source} {start offset : Nat} {node : Expr}
    {above : List (List Address)} (hinside : Inside test start offset node above) :
    Inside (cond test yes no) start offset node above
  | skip (test yes no : Source) (start : Nat) :
    Inside (cond test yes no) start (start + test.size) (skipTree test yes start)
      [test.results start]
  | yes {test yes no : Source} {start offset : Nat} {node : Expr}
    {above : List (List Address)}
    (hinside : Inside yes (start + test.size + 1) offset node above) :
    Inside (cond test yes no) start offset node above
  | leave (test yes no : Source) (start : Nat) :
    Inside (cond test yes no) start (start + test.size + yes.size + 1)
      (leaveTree test yes no start) [yes.results (start + test.size + 1)]
  | no {test yes no : Source} {start offset : Nat} {node : Expr}
    {above : List (List Address)}
    (hinside : Inside no (start + test.size + yes.size + 2) offset node above) :
    Inside (cond test yes no) start offset node above

/-- Control enters the code of an expression at its start. -/
theorem exists_inside_start (source : Source) (start : Nat) :
    ∃ node, source.Inside start start node [] := by
  induction source using Source.induction generalizing start with
  | apply opcode operand args hargs =>
      cases args with
      | nil => exact ⟨_, .operation opcode operand [] start⟩
      | cons arg rest =>
          obtain ⟨node, hinside⟩ := hargs arg List.mem_cons_self start
          exact ⟨node, @Inside.operand opcode operand [] rest arg start start node [] hinside⟩
  | cond test yes no htest hyes hno =>
      obtain ⟨node, hinside⟩ := htest start
      exact ⟨node, .test hinside⟩

/-- The operands that the instruction takes are on top. -/
theorem Inside.exists_instruction {source : Source} {start offset : Nat} {node : Expr}
    {above : List (List Address)} (hinside : source.Inside start offset node above)
    (hfits : source.fits = true) :
    ∃ instruction args rest, instruction ∈ source.code start ∧
      instruction.address = .ofNat offset ∧
      node = .op instruction.address instruction.opcode instruction.operand args ∧
      args.length = instruction.pops ∧
      above = (args.map Expr.producers).reverse ++ rest := by
  induction hinside with
  | operation opcode operand args start =>
      refine ⟨⟨.ofNat (start + sizeAll args), opcode, operand⟩, trees args start, [],
        mem_code_apply opcode operand args start, rfl, rfl, ?_, (List.append_nil _).symm⟩
      rw [length_trees, (fits_apply hfits).pops]
  | @operand opcode operand before after arg start offset node above _ ih =>
      obtain ⟨instruction, args, rest, hmem, haddress, hnode, hlength, habove⟩ :=
        ih ((fits_apply hfits).args arg (List.mem_append_right _ List.mem_cons_self))
      refine ⟨instruction, args, rest ++ columns before start, ?_, haddress, hnode, hlength, ?_⟩
      · rw [code, codeAll_append, codeAll]
        exact List.mem_append_left _ (List.mem_append_right _ (List.mem_append_left _ hmem))
      · rw [habove, List.append_assoc]
  | test _ ih =>
      obtain ⟨instruction, args, rest, hmem, hinstruction⟩ := ih (fits_cond hfits).1
      exact ⟨instruction, args, rest, mem_code_cond.2 (Or.inl hmem), hinstruction⟩
  | skip test yes no start =>
      refine ⟨skipJump test yes start, [test.tree start], [], mem_code_cond.2 (Or.inr (Or.inl rfl)),
        rfl, rfl, rfl, ?_⟩
      rw [List.map_singleton, producers_tree]
      rfl
  | yes _ ih =>
      obtain ⟨instruction, args, rest, hmem, hinstruction⟩ := ih (fits_cond hfits).2.1
      exact ⟨instruction, args, rest, mem_code_cond.2 (Or.inr (Or.inr (Or.inl hmem))),
        hinstruction⟩
  | leave test yes no start =>
      exact ⟨leaveJump test yes no start, [], [yes.results (start + test.size + 1)],
        mem_code_cond.2 (Or.inr (Or.inr (Or.inr (Or.inl rfl)))), rfl, rfl, rfl, rfl⟩
  | no _ ih =>
      obtain ⟨instruction, args, rest, hmem, hinstruction⟩ := ih (fits_cond hfits).2.2
      exact ⟨instruction, args, rest, mem_code_cond.2 (Or.inr (Or.inr (Or.inr (Or.inr hmem)))),
        hinstruction⟩

theorem Inside.lt_size {source : Source} {start offset : Nat} {node : Expr}
    {above : List (List Address)} (hinside : source.Inside start offset node above) :
    offset < start + source.size := by
  induction hinside with
  | operation opcode operand args start =>
      rw [size]
      omega
  | operand _ ih =>
      rw [size, sizeAll_append, sizeAll]
      omega
  | test _ ih =>
      rw [size]
      omega
  | skip test yes no start =>
      rw [size]
      omega
  | yes _ ih =>
      rw [size]
      omega
  | leave test yes no start =>
      have hpos := no.size_pos
      rw [size]
      omega
  | no _ ih =>
      rw [size]
      omega

/-- Control goes on within the code of an operation when an operand has been
computed. -/
theorem exists_inside_operands (opcode : Opcode) (operand : Operand) (before after : List Source)
    (start : Nat) :
    ∃ node, (apply opcode operand (before ++ after)).Inside start (start + sizeAll before) node
      (columns before start) := by
  cases after with
  | nil =>
      rw [List.append_nil]
      exact ⟨_, .operation opcode operand before start⟩
  | cons arg rest =>
      obtain ⟨node, hinside⟩ := arg.exists_inside_start (start + sizeAll before)
      exact ⟨node, .operand hinside⟩

/-- The instruction takes nothing from below the code. -/
theorem Inside.pops_le {source : Source} {start offset : Nat} {node : Expr}
    {above : List (List Address)} (hinside : source.Inside start offset node above)
    (hfits : source.fits = true) {stack : List Address} (hstack : Matches stack above)
    {instruction : Instruction} (hop : node.op? = some instruction) :
    instruction.pops ≤ stack.length := by
  obtain ⟨built, args, rest, _, _, rfl, hpops, rfl⟩ := hinside.exists_instruction hfits
  rw [Expr.op?, Option.some.injEq] at hop
  rw [hstack.length_eq, ← hop, List.length_append, List.length_reverse, List.length_map, hpops]
  exact Nat.le_add_right _ _

/-- An operation leaves its own value in the place of its operands. -/
theorem after_operation {opcode : Opcode} {operand : Operand} {args : List Source} {start : Nat}
    (happly : FitsApply opcode operand args) {stack : List Address}
    (hstack : Matches stack (columns args start)) (address : Address) :
    Machine.after ⟨address, opcode, operand⟩ stack = [address] := by
  have hlength := hstack.length_eq
  rw [columns, List.length_reverse, List.length_map, length_trees] at hlength
  rw [Machine.after, happly.pushes, if_pos Nat.one_pos, happly.pops, ← hlength,
    List.drop_length]

/-- Where a step within the code of an expression comes to: to another place within it,
or to its end with a value of the expression. -/
inductive Arrives (source : Source) (start : Nat) (target : Address) (stack : List Address) :
    Prop where
  | within {offset : Nat} {node : Expr} {above : List (List Address)}
    (hinside : source.Inside start offset node above) (htarget : target = .ofNat offset)
    (hstack : Matches stack above)
  | done (htarget : target = .ofNat (start + source.size))
    (hvalue : Matches stack [source.results start])

theorem arrives_start (source : Source) (start : Nat) :
    source.Arrives start (.ofNat start) [] := by
  obtain ⟨node, hinside⟩ := source.exists_inside_start start
  exact .within hinside rfl .nil

namespace Arrives

variable {test yes no : Source} {start : Nat} {target : Address} {stack : List Address}

/-- When an operand has been computed, control is at the next one or at the operation. -/
theorem of_operand {opcode : Opcode} {operand : Operand} {before after : List Source}
    {arg : Source} {below : List Address}
    (harrives : arg.Arrives (start + sizeAll before) target stack)
    (hbelow : Matches below (columns before start)) :
    (apply opcode operand (before ++ arg :: after)).Arrives start target (stack ++ below) := by
  cases harrives with
  | within hinside htarget hstack =>
      exact .within (.operand hinside) htarget (hstack.append hbelow)
  | done htarget hvalue =>
      obtain ⟨node, hnext⟩ := exists_inside_operands opcode operand (before ++ [arg]) after start
      rw [List.append_assoc, List.singleton_append] at hnext
      refine .within hnext ?_ ?_
      · rw [htarget, sizeAll_append, sizeAll_singleton, Nat.add_assoc]
      · rw [columns_concat]
        exact hvalue.append hbelow

/-- When the test has been computed, control is at the jump that it decides. -/
theorem of_test (harrives : test.Arrives start target stack) :
    (cond test yes no).Arrives start target stack := by
  cases harrives with
  | within hinside htarget hstack => exact .within (.test hinside) htarget hstack
  | done htarget hvalue => exact .within (.skip test yes no start) htarget hvalue

/-- When the first arm has been computed, control is at the jump past the second one. -/
theorem of_yes (harrives : yes.Arrives (start + test.size + 1) target stack) :
    (cond test yes no).Arrives start target stack := by
  cases harrives with
  | within hinside htarget hstack => exact .within (.yes hinside) htarget hstack
  | done htarget hvalue =>
      refine .within (.leave test yes no start) ?_ hvalue
      rw [htarget]
      congr 1
      omega

/-- When the second arm has been computed, the choice has been. -/
theorem of_no (harrives : no.Arrives (start + test.size + yes.size + 2) target stack) :
    (cond test yes no).Arrives start target stack := by
  cases harrives with
  | within hinside htarget hstack => exact .within (.no hinside) htarget hstack
  | done htarget hvalue =>
      refine .done ?_ (hvalue.mono fun value hvalue => mem_results_cond.2 (Or.inr hvalue))
      rw [htarget, size]
      congr 1
      omega

end Arrives

/-- An operation goes on to its end with its own value. -/
theorem arrives_operation {opcode : Opcode} {operand : Operand} {args : List Source}
    {start : Nat} (hfits : (apply opcode operand args).fits = true) {stack : List Address}
    (hstack : Matches stack (columns args start)) {target : Address}
    (hleads : Instruction.Leads ⟨.ofNat (start + sizeAll args), opcode, operand⟩
      (start + sizeAll args) target) :
    (apply opcode operand args).Arrives start target
      (Machine.after ⟨.ofNat (start + sizeAll args), opcode, operand⟩ stack) := by
  have happly := fits_apply hfits
  rw [after_operation happly hstack]
  refine .done ?_ (.cons ?_ .nil)
  · rw [size]
    rcases hleads with ⟨_, htarget⟩ | hjump
    · exact htarget
    · rw [happly.jumpTarget?] at hjump
      cases hjump
  · rw [results, alternatives_apply, active]
    exact List.mem_singleton_self _

/-- A test is taken from the stack, and control goes to one of the arms. -/
theorem arrives_skip {test yes no : Source} {start : Nat} {stack : List Address}
    (hstack : Matches stack [test.results start]) {target : Address}
    (hleads : (skipJump test yes start).Leads (start + test.size) target) :
    (cond test yes no).Arrives start target
      (Machine.after (skipJump test yes start) stack) := by
  cases hstack with
  | cons hvalue hnil =>
      cases hnil
      rcases hleads with ⟨_, rfl⟩ | hjump
      · exact .of_yes (yes.arrives_start _)
      · rw [jumpTarget?_skipJump, Option.some.injEq] at hjump
        rw [← hjump]
        exact .of_no (no.arrives_start _)

/-- The value of the first arm is that of the choice. -/
theorem arrives_leave {test yes no : Source} {start : Nat} {stack : List Address}
    (hstack : Matches stack [yes.results (start + test.size + 1)]) {target : Address}
    (hleads : (leaveJump test yes no start).Leads (start + test.size + yes.size + 1) target) :
    (cond test yes no).Arrives start target
      (Machine.after (leaveJump test yes no start) stack) := by
  refine .done ?_ (hstack.mono fun value hvalue => mem_results_cond.2 (Or.inl hvalue))
  rcases hleads with ⟨hflow, _⟩ | hjump
  · cases hflow
  · rw [jumpTarget?_leaveJump, Option.some.injEq] at hjump
    rw [← hjump, size]
    congr 1
    omega

/-- A step from within the code of an expression stays there, or leaves a value of the
expression at the end. -/
theorem Inside.step {source : Source} {start offset : Nat} {node : Expr}
    {above : List (List Address)} (hinside : source.Inside start offset node above)
    (hfits : source.fits = true) {stack : List Address} (hstack : Matches stack above)
    {instruction : Instruction} (hop : node.op? = some instruction) {target : Address}
    (hleads : instruction.Leads offset target) :
    source.Arrives start target (Machine.after instruction stack) := by
  induction hinside generalizing stack with
  | operation opcode operand args start =>
      rw [Expr.op?, Option.some.injEq] at hop
      subst hop
      exact arrives_operation hfits hstack hleads
  | @operand opcode operand before after arg start offset node above hinside ih =>
      have hfitsArg := (fits_apply hfits).args arg (List.mem_append_right _ List.mem_cons_self)
      obtain ⟨top, below, rfl, htop, hbelow⟩ := hstack.split
      rw [Machine.after_append (hinside.pops_le hfitsArg htop hop)]
      exact (ih hfitsArg htop hop hleads).of_operand hbelow
  | test _ ih => exact (ih (fits_cond hfits).1 hstack hop hleads).of_test
  | skip test yes no start =>
      rw [skipTree, Expr.op?, Option.some.injEq] at hop
      subst hop
      exact arrives_skip hstack hleads
  | yes _ ih => exact (ih (fits_cond hfits).2.1 hstack hop hleads).of_yes
  | leave test yes no start =>
      rw [leaveTree, Expr.op?, Option.some.injEq] at hop
      subst hop
      exact arrives_leave hstack hleads
  | no _ ih => exact (ih (fits_cond hfits).2.2 hstack hop hleads).of_no

/-- The nodes of all values that an expression may have. -/
def alternativeNodes (source : Source) (start : Nat) : List Expr :=
  ((source.alternatives start).map Prod.snd).flatMap Expr.nodes

theorem mem_nodes_tree {source : Source} {start : Nat} {node : Expr}
    (hnode : node ∈ source.alternativeNodes start) : node ∈ (source.tree start).nodes := by
  cases source with
  | apply opcode operand args =>
      rw [alternativeNodes, alternatives_apply, active, List.map_singleton,
        List.flatMap_singleton] at hnode
      rw [tree]
      exact hnode
  | cond test yes no =>
      rw [tree_cond, Expr.nodes_phi]
      exact List.mem_cons_of_mem _ hnode

theorem mem_alternativeNodes_cond {test yes no : Source} {start : Nat} {node : Expr} :
    node ∈ (cond test yes no).alternativeNodes start ↔
      node ∈ yes.alternativeNodes (start + test.size + 1) ∨
        node ∈ no.alternativeNodes (start + test.size + yes.size + 2) := by
  have hperm := ((alternatives_cond_perm test yes no start).map Prod.snd).flatMap_right
    Expr.nodes
  rw [alternativeNodes, hperm.mem_iff, List.map_append, List.flatMap_append, List.mem_append,
    or_comm]
  rfl

theorem statementsAll_append (left right : List Source) (start : Nat) :
    statementsAll (left ++ right) start =
      statementsAll left start ++ statementsAll right (start + sizeAll left) := by
  induction left generalizing start with
  | nil => rw [List.nil_append, statementsAll, sizeAll, List.nil_append, Nat.add_zero]
  | cons arg rest ih =>
      rw [List.cons_append, statementsAll, statementsAll, ih, sizeAll, List.append_assoc,
        Nat.add_assoc]

/-- The statements of a choice are those of its parts and its two jumps. -/
theorem mem_statementNodes_cond {test yes no : Source} {start : Nat} {node : Expr} :
    node ∈ ((cond test yes no).statements start).flatMap Expr.nodes ↔
      node ∈ (test.statements start).flatMap Expr.nodes ∨
        node ∈ (skipTree test yes start).nodes ∨
        node ∈ (yes.statements (start + test.size + 1)).flatMap Expr.nodes ∨
        node ∈ (leaveTree test yes no start).nodes ∨
        node ∈ (no.statements (start + test.size + yes.size + 2)).flatMap Expr.nodes := by
  rw [statements_cond, List.flatMap_append, List.flatMap_cons, List.flatMap_append,
    List.flatMap_cons, List.mem_append, List.mem_append, List.mem_append, List.mem_append]

/-- The instruction that is executed has its node in a statement or in a value of the
expression. -/
theorem Inside.mem_nodes {source : Source} {start offset : Nat} {node : Expr}
    {above : List (List Address)} (hinside : source.Inside start offset node above) :
    node ∈ (source.statements start).flatMap Expr.nodes ∨
      node ∈ source.alternativeNodes start := by
  induction hinside with
  | operation opcode operand args start =>
      right
      rw [alternativeNodes, alternatives_apply, active, List.map_singleton,
        List.flatMap_singleton]
      exact Expr.mem_nodes_self _
  | @operand opcode operand before after arg start offset node above _ ih =>
      rcases ih with hstatement | hvalue
      · left
        rw [statements, statementsAll_append, statementsAll, List.flatMap_append,
          List.flatMap_append]
        exact List.mem_append_right _ (List.mem_append_left _ hstatement)
      · right
        rw [alternativeNodes, alternatives_apply, active, List.map_singleton,
          List.flatMap_singleton, Expr.nodes_op, trees_append, trees]
        apply List.mem_cons_of_mem
        exact List.mem_flatMap.2 ⟨_, List.mem_append_right _ List.mem_cons_self,
          mem_nodes_tree hvalue⟩
  | test _ ih =>
      refine Or.inl (mem_statementNodes_cond.2 ?_)
      rcases ih with hstatement | hvalue
      · exact Or.inl hstatement
      · rw [skipTree, Expr.nodes_op, List.flatMap_singleton]
        exact Or.inr (Or.inl (List.mem_cons_of_mem _ (mem_nodes_tree hvalue)))
  | skip test yes no start =>
      exact Or.inl (mem_statementNodes_cond.2 (Or.inr (Or.inl (Expr.mem_nodes_self _))))
  | yes _ ih =>
      rw [mem_alternativeNodes_cond, mem_statementNodes_cond]
      tauto
  | leave test yes no start =>
      exact Or.inl (mem_statementNodes_cond.2
        (Or.inr (Or.inr (Or.inr (Or.inl (Expr.mem_nodes_self _))))))
  | no _ ih =>
      rw [mem_alternativeNodes_cond, mem_statementNodes_cond]
      tauto

end Source

namespace Program

/-- Where control may be in the code of a program, as for an expression. -/
inductive Inside : Program → Nat → Nat → Expr → List (List Address) → Prop where
  | leave (start : Nat) : Inside [] start start (.op (.ofNat start) .retVoid .absent []) []
  | expression {index : UInt16} {source : Source} {rest : Program} {start offset : Nat}
    {node : Expr} {stack : List (List Address)}
    (hinside : source.Inside start offset node stack) :
    Inside ((index, source) :: rest) start offset node stack
  | assign (index : UInt16) (source : Source) (rest : Program) (start : Nat) :
    Inside ((index, source) :: rest) start (start + source.size)
      (.op (.ofNat (start + source.size)) .stloc (.localVar index) [source.tree start])
      [source.results start]
  | later {index : UInt16} {source : Source} {rest : Program} {start offset : Nat}
    {node : Expr} {stack : List (List Address)}
    (hinside : Inside rest (start + source.size + 1) offset node stack) :
    Inside ((index, source) :: rest) start offset node stack

theorem exists_inside_start (program : Program) (start : Nat) :
    ∃ node, program.Inside start start node [] := by
  cases program with
  | nil => exact ⟨_, .leave start⟩
  | cons assignment rest =>
      obtain ⟨node, hinside⟩ := assignment.2.exists_inside_start start
      exact ⟨node, .expression hinside⟩

namespace Inside

variable {program : Program} {start offset : Nat} {node : Expr} {columns : List (List Address)}

theorem exists_instruction (hinside : program.Inside start offset node columns)
    (hfits : program.Fits) :
    ∃ instruction args rest, instruction ∈ program.code start ∧
      instruction.address = .ofNat offset ∧
      node = .op instruction.address instruction.opcode instruction.operand args ∧
      columns = (args.map Expr.producers).reverse ++ rest := by
  induction hinside with
  | leave start =>
      exact ⟨_, [], [], List.mem_singleton_self _, rfl, rfl, rfl⟩
  | expression hinside =>
      obtain ⟨instruction, args, rest, hmem, haddress, hnode, _, hcolumns⟩ :=
        hinside.exists_instruction (hfits _ List.mem_cons_self)
      refine ⟨instruction, args, rest, ?_, haddress, hnode, hcolumns⟩
      rw [code]
      exact List.mem_append_left _ (List.mem_append_left _ hmem)
  | assign index source rest start =>
      refine ⟨.stloc (.ofNat (start + source.size)) index, [source.tree start], [], ?_, rfl, rfl,
        ?_⟩
      · rw [code]
        exact List.mem_append_left _ (List.mem_append_right _ (List.mem_singleton_self _))
      · rw [List.map_singleton, Source.producers_tree]
        rfl
  | later _ ih =>
      obtain ⟨instruction, args, rest, hmem, hinstruction⟩ :=
        ih fun other hother => hfits other (List.mem_cons_of_mem _ hother)
      refine ⟨instruction, args, rest, ?_, hinstruction⟩
      rw [code]
      exact List.mem_append_right _ hmem

theorem mem_nodes (hinside : program.Inside start offset node columns) :
    node ∈ (program.statements start).flatMap Expr.nodes := by
  induction hinside with
  | leave start =>
      rw [statements, List.flatMap_singleton]
      exact Expr.mem_nodes_self _
  | expression hinside =>
      rw [statements, List.flatMap_append, List.flatMap_cons, Expr.nodes_op]
      rcases hinside.mem_nodes with hstatement | hvalue
      · exact List.mem_append_left _ hstatement
      · apply List.mem_append_right
        apply List.mem_append_left
        apply List.mem_cons_of_mem
        rw [List.flatMap_singleton]
        exact Source.mem_nodes_tree hvalue
  | assign index source rest start =>
      rw [statements]
      exact List.mem_flatMap.2 ⟨_, List.mem_append_right _ List.mem_cons_self,
        Expr.mem_nodes_self _⟩
  | later _ ih =>
      obtain ⟨expr, hexpr, hnode⟩ := List.mem_flatMap.1 ih
      rw [statements]
      exact List.mem_flatMap.2 ⟨expr, List.mem_append_right _ (List.mem_cons_of_mem _ hexpr),
        hnode⟩

theorem lt_size (hinside : program.Inside start offset node columns) :
    offset < start + program.size := by
  induction hinside with
  | leave start => exact Nat.lt_succ_self start
  | expression hinside =>
      have hlt := hinside.lt_size
      rw [size]
      omega
  | assign index source rest start =>
      rw [size]
      omega
  | later _ ih =>
      rw [size]
      omega

/-- A step stays within the code of the program. -/
theorem step (hinside : program.Inside start offset node columns) (hfits : program.Fits)
    {stack : List Address} (hstack : Matches stack columns) {instruction : Instruction}
    (hop : node.op? = some instruction) {target : Address}
    (hleads : instruction.Leads offset target) :
    ∃ next following later, program.Inside start next following later ∧ target = .ofNat next ∧
      Matches (Machine.after instruction stack) later := by
  induction hinside with
  | leave start =>
      rw [Expr.op?, Option.some.injEq] at hop
      subst hop
      rcases hleads with ⟨hflow, _⟩ | hjump
      · cases hflow
      · cases hjump
  | expression hinside =>
      cases hinside.step (hfits _ List.mem_cons_self) hstack hop hleads with
      | within hnext htarget hlater => exact ⟨_, _, _, .expression hnext, htarget, hlater⟩
      | done htarget hvalue => exact ⟨_, _, _, .assign _ _ _ _, htarget, hvalue⟩
  | assign index source rest start =>
      rw [Expr.op?, Option.some.injEq] at hop
      subst hop
      cases hstack with
      | cons hvalue hnil =>
          cases hnil
          rcases hleads with ⟨_, htarget⟩ | hjump
          · obtain ⟨following, hinside⟩ := exists_inside_start rest (start + source.size + 1)
            exact ⟨_, following, [], .later hinside, htarget, .nil⟩
          · cases hjump
  | later _ ih =>
      obtain ⟨next, following, later, hnext, hlater⟩ :=
        ih (fun other hother => hfits other (List.mem_cons_of_mem _ hother)) hstack hop hleads
      exact ⟨next, following, later, .later hnext, hlater⟩

end Inside

/-- Every run stays within the code of the program, with a stack that matches. -/
theorem exists_inside_of_reaches {program : Program} {start : Nat} (hfits : program.Fits)
    (hbound : start + program.size ≤ Address.last.toNat) {state : Machine}
    (hreaches : Machine.Reaches (program.code start) state) :
    ∃ offset node columns, program.Inside start offset node columns ∧
      state.address = .ofNat offset ∧ Matches state.stack columns := by
  have hlaid := laid_code hfits hbound
  induction hreaches with
  | @start first rest hcode =>
      obtain ⟨node, hinside⟩ := program.exists_inside_start start
      refine ⟨start, node, [], hinside, ?_, .nil⟩
      have haddresses := program.addresses_code start
      obtain ⟨size, hsize⟩ := Nat.exists_eq_add_one_of_ne_zero (Nat.ne_of_gt program.size_pos)
      rw [hcode, hsize, List.range'_succ, List.map_cons, List.map_cons] at haddresses
      exact (List.cons.inj haddresses).1
  | @step state next _ hstep ih =>
      obtain ⟨offset, node, columns, hinside, haddress, hstack⟩ := ih
      obtain ⟨built, args, rest, hbuilt, hoffset, hnode, _⟩ := hinside.exists_instruction hfits
      have hlt := hinside.lt_size
      obtain ⟨hafter, hleads⟩ := hlaid.leads_of_step hstep hbuilt hoffset (by omega) haddress
      obtain ⟨next, following, later, hnext, htarget, hlater⟩ :=
        hinside.step hfits hstack (by rw [hnode, Expr.op?]) hleads
      exact ⟨next, following, later, hnext, htarget, hafter ▸ hlater⟩

end Program

end StackLift
