import StackLift.Proofs.Lift.Taking

/-!
# What a draft holds

Lifting an instruction either stops with one of three errors or adds exactly this
instruction to the draft.  The draft then holds every visited instruction once: in
the tree of a statement, or in the expression of a value that is still on a stack.
-/

namespace StackLift

/-- What can go wrong while the instruction at an address is lifted. -/
inductive LiftError.Arises (address : Address) : LiftError → Prop where
  | rootNotLive (root : BranchId) :
    Arises address (.inconsistent address (.rootNotLive root))
  | underflow (branch : BranchId) : Arises address (.underflow branch (some address))
  | noValue : Arises address (.inconsistent address .noValue)

theorem Checked.lt_of_visited {code visited rest : List Instruction}
    {instruction : Instruction} (hcode : Checked code)
    (hsplit : code = visited ++ instruction :: rest) {address : Address}
    (haddress : address ∈ visited.map Instruction.address) :
    address < instruction.address := by
  have hincreasing := hcode.increasing
  rw [hsplit, List.pairwise_append] at hincreasing
  obtain ⟨earlier, hearlier, rfl⟩ := List.mem_map.1 haddress
  exact hincreasing.2.2 earlier hearlier instruction List.mem_cons_self

theorem mem_visited {visited : List Instruction} {address : Address}
    (instruction : Instruction)
    (haddress : address ∈ visited.map Instruction.address) :
    address ∈ (visited ++ [instruction]).map Instruction.address := by
  rw [List.map_append]
  exact List.mem_append_left _ haddress

namespace Engine

theorem advance_result (engine : Engine) (address : Address) :
    (∃ advanced, engine.advance address = (advanced, .ok ())) ∨
    ∃ stopped id, engine.advance address =
      (stopped, .error (.inconsistent address (.rootNotLive id))) := by
  rcases engine.advance_cases address with heq | ⟨id, _, heq⟩ | ⟨id, heq⟩
  · exact Or.inl ⟨_, heq⟩
  · exact Or.inl ⟨_, heq⟩
  · exact Or.inr ⟨_, id, heq⟩

theorem Stacked.activeSlots {engine : Engine} (hstacked : engine.Stacked)
    (hordered : engine.Ordered) :
    (engine.activeSlots.filterMap Slot.value?).Pairwise (· > ·) := by
  obtain ⟨branch, hbranch, hid⟩ := hordered.active_live
  rw [activeSlots_eq_of_mem hordered hbranch hid]
  exact hstacked branch hbranch

namespace Tracks

variable {engine : Engine} {listing : Listing} {code visited : List Instruction}

theorem advance (htracks : engine.Tracks listing code visited) (address : Address) :
    (engine.advance address).1.Tracks listing code visited :=
  (htracks.accounts.of_values_eq (htracks.ordered.advance address)
      (values_advance engine address)).tracks
    (settled_advance engine address) (htracks.grounded.advance address)
    (htracks.stacked.advance address)

theorem forkAt (htracks : engine.Tracks listing code visited) (notes : Listing)
    (address : Address) : (engine.forkAt notes address).Tracks listing code visited :=
  (htracks.accounts.of_values_eq (htracks.ordered.forkAt notes address)
      (values_forkAt engine notes address)).tracks
    (htracks.settled.forkAt notes address) (htracks.grounded.forkAt notes address)
    (htracks.stacked.forkAt notes address)

theorem setProducers (htracks : engine.Tracks listing code visited)
    (producers : Std.TreeMap Address (List Address)) :
    engine.Tracks { listing with producers := producers } code visited :=
  ⟨htracks.indexes.withNotes _ _ _, htracks.ordered, htracks.settled, htracks.grounded,
    htracks.stacked, htracks.distinct, htracks.produced, htracks.merged⟩

/-- An instruction that leaves nothing on the stack has been visited. -/
theorem visit (htracks : engine.Tracks listing code visited) (instruction : Instruction) :
    engine.Tracks listing code (visited ++ [instruction]) :=
  (htracks.accounts.mono fun _ haddress => mem_visited instruction haddress).tracks
    htracks.settled htracks.grounded htracks.stacked

/-- An instruction that leaves a value on the stack has been visited. -/
theorem push (htracks : engine.Tracks listing code visited) (hcode : Checked code)
    {instruction : Instruction} {rest : List Instruction}
    (hsplit : code = visited ++ instruction :: rest) :
    (engine.push instruction.address).Tracks listing code (visited ++ [instruction]) := by
  have hbefore : ∀ address ∈ visited.map Instruction.address,
      address < instruction.address :=
    fun address haddress => hcode.lt_of_visited hsplit haddress
  have hnewer : ∀ value ∈ engine.values, value < instruction.address :=
    fun value hvalue => hbefore value (htracks.produced value hvalue)
  have hfresh : instruction.address ∉ visited.map Instruction.address :=
    fun hvisited => lt_irrefl _ (hbefore _ hvisited)
  have hissued : instruction.address ∈ (visited ++ [instruction]).map Instruction.address :=
    List.mem_map_of_mem (List.mem_append_right _ (List.mem_singleton_self _))
  exact (htracks.accounts.push hfresh
      (fun _ haddress => mem_visited instruction haddress) hissued).tracks
    (htracks.settled.push _) (htracks.grounded.push htracks.settled htracks.ordered _)
    (htracks.stacked.push hnewer)

end Tracks

end Engine

namespace Popped

/-- The instructions of operands are those of the expressions that were taken. -/
theorem GiveAll.ops {listing : Listing} {slots : List Popped}
    {entries : List (Address × Expr)} {args : List Expr}
    (hall : GiveAll listing slots entries args) :
    args.flatMap Expr.ops = (entries.map Prod.snd).flatMap Expr.ops := by
  induction hall with
  | nil => rfl
  | cons hfirst _ ih =>
      rw [List.flatMap_cons, List.map_append, List.flatMap_append, ih]
      congr 1
      cases hfirst with
      | plain value expr => simp
      | merge value consumer phi entries incoming hphi hvalues hlabels hexprs =>
          rw [Expr.ops_phi, hexprs]

/-- The values of the phi set of a merged slot, the slot's own value last. -/
theorem Noted.values_eq {listing : Listing} {value consumer : Address} {phi : Phi}
    (hnoted : (Popped.mk (.value value) (some consumer)).Noted listing)
    (hphi : listing.phiAt? consumer = some phi) :
    ∃ others, phi.values = others ++ [value] := by
  obtain ⟨others, hothers, _⟩ := hnoted.own_last
  exact ⟨others, by simpa [Popped.taken, hphi, Slot.value?] using hothers⟩

theorem Gives.producer {listing : Listing} {slot : Popped}
    {entries : List (Address × Expr)} {expr : Expr} (hgives : slot.Gives listing entries expr)
    (hnoted : slot.Noted listing)
    (hkeyed : ∀ entry ∈ entries, ∃ instruction, entry.2.op? = some instruction ∧
      instruction.address = entry.1) :
    slot.slot = .value expr.producer := by
  cases hgives with
  | plain value expr =>
      obtain ⟨instruction, hop, haddress⟩ := hkeyed _ List.mem_cons_self
      rw [Expr.producer_of_op? hop, haddress]
  | merge value consumer phi entries incoming hphi hvalues hlabels hexprs =>
      obtain ⟨others, hothers⟩ := hnoted.values_eq hphi
      rw [hothers] at hvalues
      obtain ⟨initial, final, hsplit, _, hfinal⟩ := List.map_eq_append_iff.1 hvalues
      obtain ⟨entry, rest, hcons, hkey, hrest⟩ := List.map_eq_cons_iff.1 hfinal
      rw [List.map_eq_nil_iff] at hrest
      obtain ⟨instruction, hop, haddress⟩ := hkeyed entry (by simp [hsplit, hcons])
      have hlast : (incoming.getLast?.map fun incoming => incoming.2) = some entry.2 := by
        rw [← List.getLast?_map, hexprs, hsplit, hcons, hrest]
        simp
      obtain ⟨last, hgetLast, hlast⟩ := Option.map_eq_some_iff.1 hlast
      rw [Expr.producer, hgetLast, Option.map_some, Option.getD_some, hlast,
        Expr.address_of_op? hop, haddress, hkey]

/-- The nodes of an operand are those of the expressions that were taken, and the
operand itself if it merges them. -/
theorem Gives.mem_nodes_iff {listing : Listing} {slot : Popped}
    {entries : List (Address × Expr)} {expr : Expr} (hgives : slot.Gives listing entries expr)
    {node : Expr} :
    node ∈ expr.nodes ↔ node.op? = none ∧ node = expr ∨
      node ∈ (entries.map Prod.snd).flatMap Expr.nodes := by
  cases hgives with
  | plain value expr =>
      rw [List.map_singleton, List.flatMap_singleton]
      refine ⟨Or.inr, ?_⟩
      rintro (⟨_, rfl⟩ | hnode)
      · exact node.mem_nodes_self
      · exact hnode
  | merge value consumer phi entries incoming hphi hvalues hlabels hexprs =>
      rw [Expr.nodes_phi, List.mem_cons, hexprs]
      refine or_congr_left ⟨?_, And.right⟩
      rintro rfl
      exact ⟨rfl, rfl⟩

/-- A node of an operand is a node of an expression that was taken, or a merge of
such expressions. -/
theorem Gives.nodes {listing : Listing} {slot : Popped}
    {entries : List (Address × Expr)} {expr : Expr} (hgives : slot.Gives listing entries expr)
    (hnoted : slot.Noted listing)
    (hkeyed : ∀ entry ∈ entries, ∃ instruction, entry.2.op? = some instruction ∧
      instruction.address = entry.1) :
    ∀ node ∈ expr.nodes, node.op? = none ∧ node.WellFormed ∨
      node ∈ (entries.map Prod.snd).flatMap Expr.nodes := by
  intro node hnode
  cases hgives with
  | plain value expr =>
      right
      rw [List.map_singleton, List.flatMap_singleton]
      exact hnode
  | merge value consumer phi entries incoming hphi hvalues hlabels hexprs =>
      rw [Expr.nodes_phi, List.mem_cons, hexprs] at hnode
      refine hnode.imp_left ?_
      rintro rfl
      refine ⟨rfl, ?_, ?_⟩
      · rintro rfl
        obtain ⟨others, hothers⟩ := hnoted.values_eq hphi
        rw [List.map_nil, eq_comm, List.map_eq_nil_iff] at hexprs
        rw [← hvalues, hexprs] at hothers
        simp at hothers
      · intro entry hentry
        have hexpr : entry.2 ∈ entries.map Prod.snd := hexprs ▸ List.mem_map_of_mem hentry
        obtain ⟨taken, htaken, heq⟩ := List.mem_map.1 hexpr
        obtain ⟨instruction, hop, _⟩ := hkeyed taken htaken
        rw [← heq, hop]
        rfl

theorem GiveAll.mem_nodes_iff {listing : Listing} {slots : List Popped}
    {entries : List (Address × Expr)} {args : List Expr}
    (hall : GiveAll listing slots entries args) {node : Expr} :
    node ∈ args.flatMap Expr.nodes ↔ node.op? = none ∧ node ∈ args ∨
      node ∈ (entries.map Prod.snd).flatMap Expr.nodes := by
  induction hall with
  | nil => simp
  | cons hfirst _ ih =>
      rw [List.flatMap_cons, List.mem_append, hfirst.mem_nodes_iff, ih, List.mem_cons,
        List.map_append, List.flatMap_append, List.mem_append]
      tauto

theorem GiveAll.nodes {listing : Listing} {slots : List Popped}
    {entries : List (Address × Expr)} {args : List Expr}
    (hall : GiveAll listing slots entries args)
    (hnoted : ∀ slot ∈ slots, slot.Noted listing)
    (hkeyed : ∀ entry ∈ entries, ∃ instruction, entry.2.op? = some instruction ∧
      instruction.address = entry.1) :
    ∀ node ∈ args.flatMap Expr.nodes, node.op? = none ∧ node.WellFormed ∨
      node ∈ (entries.map Prod.snd).flatMap Expr.nodes := by
  induction hall with
  | nil =>
      intro node hnode
      cases hnode
  | cons hfirst _ ih =>
      intro node hnode
      rw [List.map_append, List.flatMap_append, List.mem_append, ← or_assoc]
      rw [List.flatMap_cons, List.mem_append] at hnode
      rcases hnode with hnode | hnode
      · left
        exact hfirst.nodes (hnoted _ List.mem_cons_self)
          (fun entry hentry => hkeyed entry (List.mem_append_left _ hentry)) node hnode
      · rcases ih (fun slot hslot => hnoted slot (List.mem_cons_of_mem _ hslot))
          (fun entry hentry => hkeyed entry (List.mem_append_right _ hentry)) node hnode with
          hmerge | htaken
        · exact Or.inl (Or.inl hmerge)
        · exact Or.inr htaken

theorem GiveAll.producers {listing : Listing} {slots : List Popped}
    {entries : List (Address × Expr)} {args : List Expr}
    (hall : GiveAll listing slots entries args)
    (hnoted : ∀ slot ∈ slots, slot.Noted listing)
    (hkeyed : ∀ entry ∈ entries, ∃ instruction, entry.2.op? = some instruction ∧
      instruction.address = entry.1) :
    slots.map Popped.slot = (args.map Expr.producer).map Slot.value := by
  induction hall with
  | nil => rfl
  | cons hfirst _ ih =>
      rw [List.map_cons, List.map_cons, List.map_cons,
        hfirst.producer (hnoted _ List.mem_cons_self)
          fun entry hentry => hkeyed entry (List.mem_append_left _ hentry),
        ih (fun slot hslot => hnoted slot (List.mem_cons_of_mem _ hslot))
          fun entry hentry => hkeyed entry (List.mem_append_right _ hentry)]

end Popped

/-- The producers of operands have been visited. -/
theorem Engine.PopsSlots.producer_mem {engine popped : Engine} {listing merged : Listing}
    {code visited : List Instruction} {slots : List Popped} {producers : List Address}
    (hpopsSlots : engine.PopsSlots listing code visited slots popped merged)
    (htracks : engine.Tracks listing code visited)
    (hslots : slots.map Popped.slot = producers.map Slot.value) {producer : Address}
    (hproducer : producer ∈ producers) : producer ∈ visited.map Instruction.address := by
  apply htracks.produced
  apply Engine.mem_values_of_mem_activeSlots htracks.ordered
  rw [hpopsSlots.activeSlots, hslots]
  exact List.mem_append_left _ (List.mem_reverse.2 (List.mem_map_of_mem hproducer))

/-- The tree of the instruction being lifted is well formed. -/
theorem Engine.PopsSlots.wellFormed_op {engine popped : Engine} {listing merged : Listing}
    {code visited rest : List Instruction} {instruction : Instruction} {slots : List Popped}
    {producers : List Address} {args : List Expr} (hcode : Checked code)
    (hsplit : code = visited ++ instruction :: rest)
    (htracks : engine.Tracks listing code visited)
    (hpopsSlots : engine.PopsSlots listing code visited slots popped merged)
    (hlength : slots.length = instruction.pops)
    (hslots : slots.map Popped.slot = producers.map Slot.value)
    (hargs : slots.map Popped.slot = (args.map Expr.producer).map Slot.value) :
    (Expr.op instruction.address instruction.opcode instruction.operand args).WellFormed := by
  have hproducers : args.map Expr.producer = producers := by
    have hinjective : Function.Injective Slot.value := fun _ _ heq => Slot.value.inj heq
    exact (List.map_injective_iff.2 hinjective) (hargs.symm.trans hslots)
  have hvalues : (producers.map Slot.value).filterMap Slot.value? = producers := by
    rw [List.filterMap_map]
    exact List.filterMap_some
  have hactive := htracks.stacked.activeSlots htracks.ordered
  rw [hpopsSlots.activeSlots, hslots, List.filterMap_append, List.filterMap_reverse, hvalues,
    List.pairwise_append] at hactive
  refine ⟨?_, ?_⟩
  · rw [← List.length_map (f := Expr.producer), ← List.length_map (f := Slot.value), ← hargs,
      List.length_map, hlength]
  · rw [hproducers, List.pairwise_append]
    refine ⟨List.pairwise_reverse.1 hactive.1, List.pairwise_singleton _ _, ?_⟩
    intro producer hproducer later hlater
    rw [List.mem_singleton.1 hlater]
    exact hcode.lt_of_visited hsplit (hpopsSlots.producer_mem htracks hslots hproducer)

theorem Engine.visitAll_append {engine walked : Engine} {draft next : Draft}
    {part : List Instruction} (hvisit : engine.visitAll draft part = (walked, .ok next))
    (more : List Instruction) :
    engine.visitAll draft (part ++ more) = walked.visitAll next more := by
  induction part generalizing engine draft with
  | nil =>
      rw [Engine.visitAll] at hvisit
      cases hvisit
      rfl
  | cons instruction rest ih =>
      rw [List.cons_append, Engine.visitAll]
      rw [Engine.visitAll] at hvisit
      revert hvisit
      obtain ⟨visited, result⟩ := engine.visit draft instruction
      intro hvisit
      cases result with
      | error error => cases hvisit
      | ok between => exact ih hvisit

theorem Engine.visitAll_cons_eq_ok {engine last : Engine} {draft final : Draft}
    {instruction : Instruction} {more : List Instruction}
    (hvisit : engine.visitAll draft (instruction :: more) = (last, .ok final)) :
    ∃ pushed next, engine.visit draft instruction = (pushed, .ok next) ∧
      pushed.visitAll next more = (last, .ok final) := by
  rw [Engine.visitAll] at hvisit
  revert hvisit
  obtain ⟨pushed, result⟩ := engine.visit draft instruction
  intro hvisit
  cases result with
  | error error => cases hvisit
  | ok next => exact ⟨pushed, next, rfl, hvisit⟩

/-- A walk without error can be cut in two. -/
theorem Engine.visitAll_append_eq_ok {engine last : Engine} {draft final : Draft}
    {part more : List Instruction}
    (hvisit : engine.visitAll draft (part ++ more) = (last, .ok final)) :
    ∃ walked next, engine.visitAll draft part = (walked, .ok next) ∧
      walked.visitAll next more = (last, .ok final) := by
  induction part generalizing engine draft with
  | nil => exact ⟨engine, draft, rfl, hvisit⟩
  | cons instruction rest ih =>
      rw [List.cons_append] at hvisit
      obtain ⟨pushed, between, hfirst, hrest⟩ := Engine.visitAll_cons_eq_ok hvisit
      obtain ⟨walked, next, hpart, hmore⟩ := ih hrest
      refine ⟨walked, next, ?_, hmore⟩
      rw [Engine.visitAll, hfirst]
      exact hpart

/-- All nodes of the expressions of a draft. -/
def Draft.nodes (draft : Draft) : List Expr :=
  (draft.pending.map Prod.snd ++ draft.roots).flatMap Expr.nodes

/-- A draft gets the nodes of the tree that is added. -/
theorem Draft.nodes_add_perm (draft : Draft) (instruction : Instruction) (args : List Expr) :
    (draft.add instruction args).nodes.Perm
      (.op instruction.address instruction.opcode instruction.operand args ::
        args.flatMap Expr.nodes ++ draft.nodes) := by
  rw [← Expr.nodes_op, Draft.add]
  split
  · exact List.Perm.refl _
  · exact List.perm_middle.flatMap_right Expr.nodes

theorem Draft.mem_nodes_add {draft : Draft} {instruction : Instruction} {args : List Expr}
    {node : Expr} :
    node ∈ (draft.add instruction args).nodes ↔
      node = .op instruction.address instruction.opcode instruction.operand args ∨
        node ∈ args.flatMap Expr.nodes ∨ node ∈ draft.nodes := by
  rw [(draft.nodes_add_perm instruction args).mem_iff, List.cons_append, List.mem_cons,
    List.mem_append]

/-- The operands of an instruction on their way from the stacks into its node. -/
structure Intake where
  advanced : Engine
  popped : Engine
  merged : Listing
  slots : List Popped
  producers : List Address
  entries : List (Address × Expr)
  args : List Expr
  left : Pending

namespace Intake

/-- The engine when the instruction has been lifted. -/
def engine (intake : Intake) (instruction : Instruction) : Engine :=
  let forked := intake.popped.forkAt intake.merged instruction.address
  if 0 < instruction.pushes then forked.push instruction.address else forked

/-- The listing with the producers of the operands. -/
def noted (intake : Intake) (instruction : Instruction) : Listing :=
  { intake.merged with
    producers := intake.merged.producers.insert instruction.address intake.producers }

/-- The draft when the instruction has been lifted. -/
def draft (intake : Intake) (roots : List Expr) (instruction : Instruction) : Draft :=
  Draft.add ⟨intake.noted instruction, intake.left, roots⟩ instruction intake.args

end Intake

/-- The intake of an instruction takes slots from the stacks and, for the values that
they stand for, expressions from those that are waiting. -/
structure Draft.Takes (draft : Draft) (engine : Engine) (code visited : List Instruction)
    (instruction : Instruction) (intake : Intake) : Prop where
  advance : engine.advance instruction.address = (intake.advanced, .ok ())
  tracks : intake.advanced.Tracks draft.listing code visited
  pops : intake.advanced.popSlots draft.listing instruction.pops [] =
    (intake.popped, intake.merged, .ok intake.slots)
  length : intake.slots.length = instruction.pops
  popsSlots : intake.advanced.PopsSlots draft.listing code visited intake.slots intake.popped
    intake.merged
  producers : intake.slots.map Popped.slot = intake.producers.map Slot.value
  gives : Popped.GiveAll intake.merged intake.slots intake.entries intake.args
  keys : intake.entries.map Prod.fst = intake.slots.flatMap (·.taken intake.merged)
  pending : draft.pending.Perm (intake.entries ++ intake.left)
  keyed : ∀ entry ∈ intake.entries, ∃ instruction, entry.2.op? = some instruction ∧
    instruction.address = entry.1

/-- What lifting an instruction does.  Its operands are the topmost slots of the
branch on which it is met, and its node is the only new one besides merges. -/
structure Draft.Lifts (draft : Draft) (code : List Instruction) (engine : Engine)
    (instruction : Instruction) (advanced popped : Engine) (args : List Expr) (next : Draft)
    (pushed : Engine) : Prop where
  advance : engine.advance instruction.address = (advanced, .ok ())
  pops : ∃ merged slots, merged.Indexes code ∧
    advanced.popSlots draft.listing instruction.pops [] = (popped, merged, .ok slots) ∧
      pushed = if 0 < instruction.pushes then
          (popped.forkAt merged instruction.address).push instruction.address
        else popped.forkAt merged instruction.address
  ordered : popped.Ordered
  length : args.length = instruction.pops
  wellFormed : ∀ arg ∈ args, arg.WellFormed
  activeSlots : advanced.activeSlots =
    ((args.map Expr.producer).map Slot.value).reverse ++ popped.activeSlots
  nodes : ∀ node ∈ next.nodes,
    node = .op instruction.address instruction.opcode instruction.operand args ∨
      node.op? = none ∨ node ∈ draft.nodes

/-- The draft holds each visited instruction once, and waiting expressions are those
of the values on the stacks. -/
structure Draft.HoldsVisited (draft : Draft) (engine : Engine)
    (code visited : List Instruction) : Prop where
  tracks : engine.Tracks draft.listing code visited
  held : (draft.pending.map Prod.fst).Perm engine.values
  keyed : ∀ entry ∈ draft.pending, ∃ instruction, entry.2.op? = some instruction ∧
    instruction.address = entry.1
  ops : ((draft.pending.map Prod.snd ++ draft.roots).flatMap Expr.ops).Perm visited
  roots : draft.roots.reverse.map Expr.op? =
    (visited.filter fun instruction => instruction.pushes = 0).map some
  wellFormed : ∀ node ∈ draft.nodes, node.WellFormed

theorem Draft.holdsVisited_start {listing : Listing} {code : List Instruction}
    (hindex : listing.Indexes code) (hphis : listing.phis = ∅)
    (id : BranchId) : (Draft.start listing).HoldsVisited (Engine.withMain id) code [] where
  tracks := (Engine.accounts_withMain hindex hphis id _).tracks (Engine.settled_withMain id)
    (Engine.grounded_withMain id) (Engine.stacked_withMain id)
  held := List.Perm.refl _
  keyed := by simp [Draft.start]
  ops := List.Perm.refl _
  roots := rfl
  wellFormed := by simp [Draft.start, Draft.nodes]

namespace Draft.HoldsVisited

variable {draft : Draft} {engine : Engine} {code visited rest : List Instruction}
  {instruction : Instruction}

/-- Expressions that go on waiting are no new ones. -/
theorem nodes_subset {noted : Listing} {left : Pending} {entries : List (Address × Expr)}
    (hperm : draft.pending.Perm (entries ++ left)) {node : Expr}
    (hnode : node ∈ (Draft.mk noted left draft.roots).nodes) : node ∈ draft.nodes := by
  rw [Draft.nodes, List.flatMap_append, List.mem_append] at hnode ⊢
  refine hnode.imp_left fun hnode => ?_
  rw [((hperm.map Prod.snd).flatMap_right Expr.nodes).mem_iff, List.map_append,
    List.flatMap_append]
  exact List.mem_append_right _ hnode

/-- Expressions that are taken have been waiting. -/
theorem nodes_taken {left : Pending} {entries : List (Address × Expr)}
    (hperm : draft.pending.Perm (entries ++ left)) {node : Expr}
    (hnode : node ∈ (entries.map Prod.snd).flatMap Expr.nodes) : node ∈ draft.nodes := by
  rw [Draft.nodes, List.flatMap_append, List.mem_append,
    ((hperm.map Prod.snd).flatMap_right Expr.nodes).mem_iff, List.map_append,
    List.flatMap_append]
  exact Or.inl (List.mem_append_left _ hnode)

/-- The draft grows by the instruction whose operands have been taken. -/
theorem add (hholds : draft.HoldsVisited engine code visited) (hcode : Checked code)
    (hsplit : code = visited ++ instruction :: rest) {forked : Engine} {noted : Listing}
    {left : Pending} {entries : List (Address × Expr)} {args : List Expr}
    (htracks : forked.Tracks noted code visited)
    (hheld : (left.map Prod.fst).Perm forked.values)
    (hperm : draft.pending.Perm (entries ++ left))
    (hops : args.flatMap Expr.ops = (entries.map Prod.snd).flatMap Expr.ops)
    (hargs : ∀ node ∈ args.flatMap Expr.nodes, node.WellFormed)
    (hnode : (Expr.op instruction.address instruction.opcode instruction.operand
      args).WellFormed) :
    (Draft.add ⟨noted, left, draft.roots⟩ instruction args).HoldsVisited
      (if 0 < instruction.pushes then forked.push instruction.address else forked)
      code (visited ++ [instruction]) := by
  have hleft : ∀ entry ∈ left, entry ∈ draft.pending :=
    fun entry hentry => hperm.mem_iff.2 (List.mem_append_right _ hentry)
  have hall : (instruction :: (args.flatMap Expr.ops ++
      (left.map Prod.snd ++ draft.roots).flatMap Expr.ops)).Perm
        (visited ++ [instruction]) := by
    have hsame := (hperm.map Prod.snd).flatMap_right Expr.ops
    rw [List.map_append, List.flatMap_append, ← hops] at hsame
    have htotal := hholds.ops
    rw [List.flatMap_append] at htotal
    have hvisited := (hsame.append_right _).symm.trans htotal
    rw [List.append_assoc, ← List.flatMap_append] at hvisited
    exact (hvisited.cons instruction).trans (List.perm_append_singleton _ _).symm
  have hwellFormed : ∀ node ∈ (Draft.add ⟨noted, left, draft.roots⟩ instruction args).nodes,
      node.WellFormed := by
    intro node hmem
    rcases Draft.mem_nodes_add.1 hmem with rfl | hmem | hmem
    · exact hnode
    · exact hargs node hmem
    · exact hholds.wellFormed node (nodes_subset hperm hmem)
  by_cases hpushes : 0 < instruction.pushes
  · rw [if_pos hpushes, Draft.add, if_pos hpushes]
    refine ⟨htracks.push hcode hsplit, ?_, ?_, ?_, ?_, ?_⟩
    · exact (hheld.cons _).trans (htracks.ordered.values_push_perm _).symm
    · intro entry hentry
      rcases List.mem_cons.1 hentry with rfl | hentry
      · exact ⟨instruction, rfl, rfl⟩
      · exact hholds.keyed entry (hleft entry hentry)
    · rw [List.map_cons, List.cons_append, List.flatMap_cons, Expr.ops_op]
      exact hall
    · rw [List.filter_append, List.filter_singleton, hholds.roots]
      simp [Nat.ne_of_gt hpushes]
    · rw [Draft.add, if_pos hpushes] at hwellFormed
      exact hwellFormed
  · have hnone : instruction.pushes = 0 := Nat.eq_zero_of_not_pos hpushes
    rw [if_neg hpushes, Draft.add, if_neg hpushes]
    refine ⟨htracks.visit instruction, hheld, ?_, ?_, ?_, ?_⟩
    · exact fun entry hentry => hholds.keyed entry (hleft entry hentry)
    · refine (List.Perm.flatMap_right _ List.perm_middle).trans ?_
      rw [List.flatMap_cons, Expr.ops_op]
      exact hall
    · rw [List.reverse_cons, List.map_append, hholds.roots, List.filter_append,
        List.filter_singleton, hnone]
      simp [Expr.op?]
    · rw [Draft.add, if_neg hpushes] at hwellFormed
      exact hwellFormed

/-- Lifting one instruction stops with an error of its address, or it adds the
instruction with all that its intake has taken. -/
theorem visit_cases (hholds : draft.HoldsVisited engine code visited) (hcode : Checked code)
    (hsplit : code = visited ++ instruction :: rest) :
    (∃ stopped error, engine.visit draft instruction = (stopped, .error error) ∧
      LiftError.Arises instruction.address error) ∨
    ∃ intake, draft.Takes engine code visited instruction intake ∧
      engine.visit draft instruction =
        (intake.engine instruction, .ok (intake.draft draft.roots instruction)) := by
  rw [Engine.visit]
  rcases engine.advance_result instruction.address with
    ⟨advanced, heq⟩ | ⟨stopped, id, heq⟩
  · have hadvanced := hholds.tracks.advance instruction.address
    have hvalues := engine.values_advance instruction.address
    have hcursor := engine.cursor_advance instruction.address
    rw [heq] at hadvanced hvalues hcursor
    simp only [heq]
    rcases hadvanced.popSlots hcode hsplit instruction.pops [] with
      ⟨popped, merged, hpops⟩ | ⟨slots, popped, merged, hpops, hlength, hpopsSlots⟩
    · left
      simp only [hpops]
      rw [hcursor]
      exact ⟨_, _, rfl, .underflow _⟩
    · rw [List.append_nil] at hpops
      have hkeys : (draft.pending.map Prod.fst).Perm
          (slots.flatMap (·.taken merged) ++ popped.values) := by
        have htaken := hpopsSlots.values
        rw [hvalues] at htaken
        exact hholds.held.trans htaken
      simp only [hpops]
      rcases Pending.takeOperands_of_perm instruction.address hpopsSlots.noted hkeys with
        herror | ⟨producers, args, left, entries, htake, hslots, hall, hentries, hperm⟩
      · left
        simp only [herror]
        exact ⟨_, _, rfl, .noValue⟩
      · right
        have hcontains : merged.contains instruction.address = true := by
          rw [hpopsSlots.tracks.indexes.contains_iff hcode, hsplit]
          exact List.mem_map_of_mem
            (List.mem_append_right _ List.mem_cons_self)
        have hset : merged.setProducers instruction.address producers = .ok { merged with
            producers := merged.producers.insert instruction.address producers } :=
          Listing.setProducers_eq_ok_iff.2 ⟨hcontains, rfl⟩
        have hkeyed : ∀ entry ∈ entries, ∃ instruction, entry.2.op? = some instruction ∧
            instruction.address = entry.1 := fun entry hentry =>
          hholds.keyed entry (hperm.mem_iff.2 (List.mem_append_left _ hentry))
        simp only [htake, hset]
        exact ⟨⟨advanced, popped, merged, slots, producers, entries, args, left⟩,
          ⟨heq, hadvanced, hpops, hlength, hpopsSlots, hslots, hall, hentries, hperm, hkeyed⟩, rfl⟩
  · left
    simp only [heq]
    exact ⟨_, _, rfl, .rootNotLive id⟩

/-- What was taken for an instruction that has been lifted. -/
theorem takes (hholds : draft.HoldsVisited engine code visited) (hcode : Checked code)
    (hsplit : code = visited ++ instruction :: rest) {pushed : Engine} {next : Draft}
    (hvisit : engine.visit draft instruction = (pushed, .ok next)) :
    ∃ intake, draft.Takes engine code visited instruction intake ∧
      pushed = intake.engine instruction ∧ next = intake.draft draft.roots instruction := by
  rcases hholds.visit_cases hcode hsplit with
    ⟨stopped, error, heq, _⟩ | ⟨intake, htakes, heq⟩
  · rw [hvisit] at heq
    cases heq
  · rw [hvisit] at heq
    cases heq
    exact ⟨intake, htakes, rfl, rfl⟩

/-- Lifting one instruction stops with an error of its address, or adds it. -/
theorem visit (hholds : draft.HoldsVisited engine code visited) (hcode : Checked code)
    (hsplit : code = visited ++ instruction :: rest) :
    (∃ stopped error, engine.visit draft instruction = (stopped, .error error) ∧
      LiftError.Arises instruction.address error) ∨
    ∃ pushed next, engine.visit draft instruction = (pushed, .ok next) ∧
      next.HoldsVisited pushed code (visited ++ [instruction]) ∧
      ∃ advanced popped args,
        draft.Lifts code engine instruction advanced popped args next pushed := by
  refine (hholds.visit_cases hcode hsplit).imp_right ?_
  rintro ⟨intake, htakes, heq⟩
  have hpopsSlots := htakes.popsSlots
  have hforked := (hpopsSlots.tracks.forkAt intake.merged instruction.address).setProducers
    (intake.merged.producers.insert instruction.address intake.producers)
  have hproducers := htakes.gives.producers hpopsSlots.noted htakes.keyed
  have hnodes := htakes.gives.nodes hpopsSlots.noted htakes.keyed
  have hnode := hpopsSlots.wellFormed_op hcode hsplit htakes.tracks htakes.length htakes.producers
    hproducers
  have hargs : ∀ node ∈ intake.args.flatMap Expr.nodes, node.WellFormed := by
    intro node hnode
    rcases hnodes node hnode with ⟨_, hmerge⟩ | htaken
    · exact hmerge
    · exact hholds.wellFormed node (nodes_taken htakes.pending htaken)
  have hheld : (intake.left.map Prod.fst).Perm
      (intake.popped.forkAt intake.merged instruction.address).values := by
    have hvalues := engine.values_advance instruction.address
    rw [htakes.advance] at hvalues
    have hkeys := hholds.held.trans (hvalues ▸ hpopsSlots.values)
    rw [← htakes.keys] at hkeys
    rw [Engine.values_forkAt]
    exact Pending.keys_perm_of_perm intake.entries htakes.pending hkeys
  refine ⟨_, _, heq, hholds.add hcode hsplit hforked hheld htakes.pending htakes.gives.ops
      hargs hnode, intake.advanced, intake.popped, intake.args, htakes.advance,
    ⟨intake.merged, intake.slots, hpopsSlots.tracks.indexes, htakes.pops, rfl⟩,
    hpopsSlots.tracks.ordered, hnode.1, ?_, ?_, ?_⟩
  · exact fun arg harg => hargs arg (List.mem_flatMap.2 ⟨arg, harg, arg.mem_nodes_self⟩)
  · rw [hpopsSlots.activeSlots, hproducers]
  · intro node hnode
    rcases Draft.mem_nodes_add.1 hnode with hown | hnode | hold
    · exact Or.inl hown
    · right
      exact (hnodes node hnode).imp And.left (nodes_taken htakes.pending)
    · exact Or.inr (Or.inr (nodes_subset htakes.pending hold))

theorem lifts (hholds : draft.HoldsVisited engine code visited) (hcode : Checked code)
    (hsplit : code = visited ++ instruction :: rest) {pushed : Engine} {next : Draft}
    (hvisit : engine.visit draft instruction = (pushed, .ok next)) :
    next.HoldsVisited pushed code (visited ++ [instruction]) ∧
      ∃ advanced popped args,
        draft.Lifts code engine instruction advanced popped args next pushed := by
  rcases hholds.visit hcode hsplit with
    ⟨stopped, error, heq, _⟩ | ⟨other, added, heq, hlifts⟩
  · rw [hvisit] at heq
    cases heq
  · rw [hvisit] at heq
    cases heq
    exact hlifts

/-- Lifting several instructions stops with an error of one of them, or adds them
all. -/
theorem visitAll (hcode : Checked code) (part : List Instruction)
    (hholds : draft.HoldsVisited engine code visited) (hsplit : code = visited ++ (part ++ rest)) :
    (∃ stopped error, engine.visitAll draft part = (stopped, .error error) ∧
      ∃ instruction ∈ part, LiftError.Arises instruction.address error) ∨
    ∃ walked final, engine.visitAll draft part = (walked, .ok final) ∧
      final.HoldsVisited walked code (visited ++ part) := by
  induction part generalizing engine draft visited with
  | nil =>
      right
      refine ⟨engine, draft, rfl, ?_⟩
      rw [List.append_nil]
      exact hholds
  | cons instruction more ih =>
      rw [Engine.visitAll]
      rcases hholds.visit hcode hsplit with
        ⟨stopped, error, heq, harises⟩ | ⟨pushed, next, heq, hnext, _⟩
      · left
        exact ⟨stopped, error, by simp only [heq], instruction, List.mem_cons_self, harises⟩
      · simp only [heq]
        have hmore : code = visited ++ [instruction] ++ (more ++ rest) := by
          rw [hsplit, List.append_assoc, List.singleton_append, List.cons_append]
        rcases ih hnext hmore with
          ⟨stopped, error, heq, later, hlater, harises⟩ | hdone
        · exact Or.inl ⟨stopped, error, heq, later, List.mem_cons_of_mem _ hlater, harises⟩
        · right
          rw [List.append_assoc, List.singleton_append] at hdone
          exact hdone

theorem of_visitAll (hholds : draft.HoldsVisited engine code visited) (hcode : Checked code)
    {part : List Instruction} (hsplit : code = visited ++ (part ++ rest))
    {walked : Engine} {final : Draft}
    (hvisit : engine.visitAll draft part = (walked, .ok final)) :
    final.HoldsVisited walked code (visited ++ part) := by
  rcases hholds.visitAll hcode part hsplit with
    ⟨stopped, error, heq, _⟩ | ⟨other, done, heq, hdone⟩
  · rw [hvisit] at heq
    cases heq
  · rw [hvisit] at heq
    cases heq
    exact hdone

end Draft.HoldsVisited

end StackLift
