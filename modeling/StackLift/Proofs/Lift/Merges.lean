import StackLift.Proofs.Lift.Outcome

/-!
# Merges and phi sets

A merge in a tree and a phi set in the table are two records of one event: a pop that
found values waiting.  The merges of a draft are therefore the entries of its table.
Each merge is an operand of one instruction, and no value belongs to two phi sets,
because the values of a new one have just been taken off the stacks.
-/

namespace StackLift

namespace Phi

theorem ext_values_labels {phi other : Phi} (hvalues : phi.values = other.values)
    (hlabels : phi.labels = other.labels) : phi = other := by
  have hzip : ∀ phi : Phi, phi.alternatives =
      (phi.values.zip phi.labels).map fun pair => ⟨pair.1, pair.2⟩ := by
    intro phi
    rw [values, labels, List.zip_map', List.map_map]
    exact (List.map_id _).symm
  have halternatives : phi.alternatives = other.alternatives := by
    rw [hzip phi, hzip other, hvalues, hlabels]
  cases phi
  cases other
  exact congrArg Phi.mk halternatives

end Phi

namespace Expr

/-- The consumer and the phi set that a merge stands for. -/
def merge? : Expr → Option (Address × Phi)
  | .op _ _ _ _ => none
  | .phi anchor incoming =>
    some (anchor, ⟨incoming.map fun entry => ⟨entry.2.address, entry.1⟩⟩)

def operands : Expr → List Expr
  | .op _ _ _ args => args
  | .phi _ _ => []

end Expr

namespace Popped

variable {listing : Listing}

/-- The merge of taken expressions stands for the phi set. -/
theorem merge?_eq {phi : Phi} {consumer : Address} {entries incoming : List (Address × Expr)}
    (hvalues : entries.map Prod.fst = phi.values) (hlabels : incoming.map Prod.fst = phi.labels)
    (hexprs : incoming.map Prod.snd = entries.map Prod.snd)
    (hkeyed : ∀ entry ∈ entries, ∃ instruction, entry.2.op? = some instruction ∧
      instruction.address = entry.1) :
    (Expr.phi consumer incoming).merge? = some (consumer, phi) := by
  have haddresses : (incoming.map Prod.snd).map Expr.address = entries.map Prod.fst := by
    rw [hexprs, List.map_map]
    apply List.map_congr_left
    intro entry hentry
    obtain ⟨instruction, hop, haddress⟩ := hkeyed entry hentry
    rw [Function.comp_apply, Expr.address_of_op? hop, haddress]
  have hphi : (⟨incoming.map fun entry => ⟨entry.2.address, entry.1⟩⟩ : Phi) = phi := by
    apply Phi.ext_values_labels
    · rw [← hvalues, ← haddresses, Phi.values, List.map_map, List.map_map]
      rfl
    · rw [← hlabels, Phi.labels, List.map_map]
      rfl
  rw [Expr.merge?, hphi]

/-- Besides the merges in the expressions that were taken, an operand has the one of its
slot. -/
theorem Gives.merges {slot : Popped} {entries : List (Address × Expr)} {expr : Expr}
    (hgives : slot.Gives listing entries expr)
    (hkeyed : ∀ entry ∈ entries, ∃ instruction, entry.2.op? = some instruction ∧
      instruction.address = entry.1) :
    expr.nodes.filterMap Expr.merge? = slot.entries listing ++
      ((entries.map Prod.snd).flatMap Expr.nodes).filterMap Expr.merge? := by
  cases hgives with
  | plain value expr => rw [List.map_singleton, List.flatMap_singleton]; rfl
  | merge value consumer phi entries incoming hphi hvalues hlabels hexprs =>
      rw [Expr.nodes_phi, List.filterMap_cons, merge?_eq hvalues hlabels hexprs hkeyed, hexprs,
        Popped.entries]
      simp only [hphi]
      rfl

theorem GiveAll.merges_perm {slots : List Popped} {entries : List (Address × Expr)}
    {args : List Expr} (hall : GiveAll listing slots entries args)
    (hkeyed : ∀ entry ∈ entries, ∃ instruction, entry.2.op? = some instruction ∧
      instruction.address = entry.1) :
    ((args.flatMap Expr.nodes).filterMap Expr.merge?).Perm
      (slots.flatMap (·.entries listing) ++
        ((entries.map Prod.snd).flatMap Expr.nodes).filterMap Expr.merge?) := by
  induction hall with
  | nil => exact List.Perm.refl _
  | cons hfirst _ ih =>
      have hrest := ih fun entry hentry => hkeyed entry (List.mem_append_right _ hentry)
      have hown := hfirst.merges fun entry hentry =>
        hkeyed entry (List.mem_append_left _ hentry)
      rw [List.flatMap_cons, List.filterMap_append, hown, List.flatMap_cons, List.map_append,
        List.flatMap_append, List.filterMap_append, List.append_assoc, List.append_assoc]
      refine List.Perm.append_left _ ?_
      rw [← List.append_assoc]
      refine (hrest.append_left _).trans ?_
      rw [← List.append_assoc]
      exact List.perm_append_comm.append_right _

/-- A merge among the operands has its phi set in the listing. -/
theorem GiveAll.phiAt?_of_mem {slots : List Popped} {entries : List (Address × Expr)}
    {args : List Expr} (hall : GiveAll listing slots entries args) {anchor : Address}
    {incoming : List (Address × Expr)} (harg : .phi anchor incoming ∈ args)
    (hkeyed : ∀ entry ∈ entries, ∃ instruction, entry.2.op? = some instruction ∧
      instruction.address = entry.1) :
    ∃ phi, listing.phiAt? anchor = some phi := by
  induction hall with
  | nil => cases harg
  | cons hfirst _ ih =>
      rcases List.mem_cons.1 harg with heq | hrest
      · cases hfirst with
        | plain value expr =>
            obtain ⟨instruction, hop, _⟩ := hkeyed _ (List.mem_append_left _ List.mem_cons_self)
            rw [← heq] at hop
            cases hop
        | merge value consumer phi entries incoming hphi hvalues hlabels hexprs =>
            cases heq
            exact ⟨phi, hphi⟩
      · exact ih hrest fun entry hentry => hkeyed entry (List.mem_append_right _ hentry)

theorem mem_entries_iff {slot : Popped} {entry : Address × Phi} :
    entry ∈ slot.entries listing ↔
      slot.merge = some entry.1 ∧ listing.phiAt? entry.1 = some entry.2 := by
  obtain ⟨consumer, phi⟩ := entry
  rw [entries]
  cases slot.merge with
  | none => simp
  | some anchor =>
      simp only [Option.mem_toList, Option.map_eq_some_iff, Prod.mk.injEq, Option.some.injEq]
      constructor
      · rintro ⟨found, hfound, rfl, rfl⟩
        exact ⟨rfl, hfound⟩
      · rintro ⟨rfl, hphi⟩
        exact ⟨phi, hphi, rfl, rfl⟩

/-- The values of the phi set of a slot are those that the slot stands for. -/
theorem values_of_mem_entries {slot : Popped} {entry : Address × Phi}
    (hentry : entry ∈ slot.entries listing) : slot.taken listing = entry.2.values := by
  obtain ⟨hmerge, hphi⟩ := mem_entries_iff.1 hentry
  simp only [taken, hmerge, hphi, Option.map_some, Option.getD_some]

/-- A merged slot that holds a value stands for more than this one. -/
theorem Noted.two_le_size {slot : Popped} (hnoted : slot.Noted listing) {value : Address}
    (hvalue : slot.slot = .value value) {entry : Address × Phi}
    (hentry : entry ∈ slot.entries listing) : 2 ≤ entry.2.values.length := by
  obtain ⟨others, hothers, hwaited⟩ := hnoted.own_last
  have hne : others ≠ [] := hwaited (by rw [(mem_entries_iff.1 hentry).1]; rfl)
  have hpos : 0 < others.length := List.length_pos_iff.2 hne
  rw [← values_of_mem_entries hentry, hothers, hvalue, List.length_append]
  simp only [Slot.value?, Option.toList_some, List.length_singleton]
  omega

theorem values_entries_sublist (slot : Popped) (listing : Listing) :
    List.Sublist ((slot.entries listing).flatMap fun entry => entry.2.values)
      (slot.taken listing) := by
  rw [entries, taken]
  split
  · exact List.nil_sublist _
  · next consumer _ =>
    cases listing.phiAt? consumer with
    | none => exact List.nil_sublist _
    | some phi => simp

theorem values_flatMap_entries_sublist (slots : List Popped) (listing : Listing) :
    List.Sublist ((slots.flatMap (·.entries listing)).flatMap fun entry => entry.2.values)
      (slots.flatMap (·.taken listing)) := by
  induction slots with
  | nil => exact List.Sublist.refl _
  | cons slot rest ih =>
      rw [List.flatMap_cons, List.flatMap_append, List.flatMap_cons]
      exact (slot.values_entries_sublist listing).append ih

end Popped

namespace Draft

/-- The merges of a draft are the entries of its table.  Every entry has at least two
values, and every value belongs to one entry.  Every merge is an operand of an
instruction at its consumer or behind it. -/
structure MergesMatchTable (draft : Draft) (code : List Instruction) : Prop where
  listing : draft.listing.NotesConsistent code
  table : (draft.nodes.filterMap Expr.merge?).Perm draft.listing.phiTable
  several : ∀ entry ∈ draft.listing.phiTable, 2 ≤ entry.2.values.length
  apart : (draft.listing.phiTable.flatMap fun entry => entry.2.values).Nodup
  consumed : ∀ anchor incoming, .phi anchor incoming ∈ draft.nodes →
    ∃ parent ∈ draft.nodes, .phi anchor incoming ∈ parent.operands
  reached : ∀ parent ∈ draft.nodes, ∀ anchor incoming,
    .phi anchor incoming ∈ parent.operands → anchor ≤ parent.address

theorem mergesMatchTable_start {method : Method} {listing : Listing}
    (hlisting : Listing.ofMethod method = .ok listing) (code : List Instruction) :
    (Draft.start listing).MergesMatchTable code := by
  have htable := Listing.phiTable_of_phis (Listing.phis_of_ofMethod hlisting)
  refine ⟨Listing.notesConsistent_of_ofMethod hlisting code, ?_, ?_, ?_, ?_, ?_⟩
  · simp [Draft.start, Draft.nodes, htable]
  · simp [Draft.start, htable]
  · simp [Draft.start, htable]
  · simp [Draft.start, Draft.nodes]
  · simp [Draft.start, Draft.nodes]

namespace Takes

variable {draft : Draft} {engine : Engine} {code visited rest : List Instruction}
  {instruction : Instruction} {intake : Intake}

/-- No node is lost when an instruction is lifted. -/
theorem mem_nodes_iff (htakes : draft.Takes engine code visited instruction intake)
    {node : Expr} :
    node ∈ (intake.draft draft.roots instruction).nodes ↔
      node = .op instruction.address instruction.opcode instruction.operand intake.args ∨
        node.op? = none ∧ node ∈ intake.args ∨ node ∈ draft.nodes := by
  have hold : node ∈ draft.nodes ↔
      node ∈ (intake.entries.map Prod.snd).flatMap Expr.nodes ∨
        node ∈ (Draft.mk (intake.noted instruction) intake.left draft.roots).nodes := by
    rw [Draft.nodes, Draft.nodes, List.flatMap_append, List.mem_append,
      ((htakes.pending.map Prod.snd).flatMap_right Expr.nodes).mem_iff, List.map_append,
      List.flatMap_append, List.mem_append, List.flatMap_append, List.mem_append, or_assoc]
  rw [Intake.draft, Draft.mem_nodes_add, htakes.gives.mem_nodes_iff, hold, or_assoc]

theorem merges_perm (htakes : draft.Takes engine code visited instruction intake) :
    ((intake.draft draft.roots instruction).nodes.filterMap Expr.merge?).Perm
      (intake.slots.flatMap (·.entries intake.merged) ++
        draft.nodes.filterMap Expr.merge?) := by
  have hold : (draft.nodes.filterMap Expr.merge?).Perm
      (((intake.entries.map Prod.snd).flatMap Expr.nodes).filterMap Expr.merge? ++
        (Draft.mk (intake.noted instruction) intake.left draft.roots).nodes.filterMap
          Expr.merge?) := by
    rw [← List.filterMap_append, Draft.nodes, Draft.nodes, ← List.flatMap_append,
      ← List.append_assoc, ← List.map_append]
    exact (((htakes.pending.map Prod.snd).append_right _).flatMap_right _).filterMap _
  rw [Intake.draft]
  refine ((Draft.nodes_add_perm _ instruction intake.args).filterMap _).trans ?_
  rw [List.cons_append, List.filterMap_cons, List.filterMap_append]
  refine ((htakes.gives.merges_perm htakes.keyed).append_right _).trans ?_
  rw [List.append_assoc]
  exact hold.symm.append_left _

/-- The values that were on the stacks before are apart from those in the table. -/
theorem apart (htakes : draft.Takes engine code visited instruction intake)
    (hmerges : draft.MergesMatchTable code) :
    (intake.merged.phiTable.flatMap fun entry => entry.2.values).Nodup := by
  have htaken : (intake.slots.flatMap (·.taken intake.merged)).Nodup :=
    (List.nodup_append.1 (htakes.popsSlots.values.nodup htakes.tracks.distinct)).1
  have hsublist := Popped.values_flatMap_entries_sublist intake.slots intake.merged
  refine (htakes.popsSlots.table.flatMap_right _).nodup_iff.2 ?_
  rw [List.flatMap_append]
  refine List.nodup_append.2 ⟨htaken.sublist hsublist, hmerges.apart, ?_⟩
  rintro value hnew _ hold rfl
  obtain ⟨entry, hentry, hvalue⟩ := List.mem_flatMap.1 hold
  have hmerged := htakes.tracks.merged entry.1 entry.2 (Listing.mem_phiTable_iff.1 hentry)
  apply (hmerged.1 value hvalue).2
  exact htakes.popsSlots.values.mem_iff.2 (List.mem_append_left _ (hsublist.subset hnew))

theorem several (htakes : draft.Takes engine code visited instruction intake)
    (hmerges : draft.MergesMatchTable code) :
    ∀ entry ∈ intake.merged.phiTable, 2 ≤ entry.2.values.length := by
  intro entry hentry
  rcases List.mem_append.1 (htakes.popsSlots.table.mem_iff.1 hentry) with hnew | hold
  · obtain ⟨slot, hslot, hentry⟩ := List.mem_flatMap.1 hnew
    -- operands are taken from slots that hold values only
    have hmem : slot.slot ∈ intake.producers.map Slot.value := by
      rw [← htakes.producers]
      exact List.mem_map_of_mem hslot
    obtain ⟨value, _, hvalue⟩ := List.mem_map.1 hmem
    exact (htakes.popsSlots.noted slot hslot).two_le_size hvalue.symm hentry
  · exact hmerges.several entry hold

/-- A merge is attached to an instruction that has been reached. -/
theorem anchor_le (htakes : draft.Takes engine code visited instruction intake)
    (hcode : Checked code) (hsplit : code = visited ++ instruction :: rest)
    {anchor : Address} {incoming : List (Address × Expr)}
    (harg : .phi anchor incoming ∈ intake.args) : anchor ≤ instruction.address := by
  obtain ⟨phi, hphi⟩ := htakes.gives.phiAt?_of_mem harg htakes.keyed
  obtain ⟨hvalues, last, hlast, hnext⟩ := htakes.popsSlots.tracks.merged anchor phi hphi
  have hvisited := (hvalues last (Phi.anchor?_eq_some_iff.1 hlast).1).1
  exact htakes.popsSlots.tracks.indexes.next?_le hcode hsplit hvisited hnext

theorem mergesMatchTable (htakes : draft.Takes engine code visited instruction intake)
    (hcode : Checked code) (hsplit : code = visited ++ instruction :: rest)
    (hmerges : draft.MergesMatchTable code) :
    (intake.draft draft.roots instruction).MergesMatchTable code := by
  have hlisting : (intake.draft draft.roots instruction).listing = intake.noted instruction := by
    rw [Intake.draft, Draft.add]
    split <;> rfl
  refine ⟨?_, ?_, ?_, ?_, ?_, ?_⟩
  · rw [hlisting]
    refine (htakes.popsSlots.notesConsistent hmerges.listing).setProducers _ ?_
    intro producer hproducer
    rw [hsplit, List.map_append]
    exact List.mem_append_left _
      (htakes.popsSlots.producer_mem htakes.tracks htakes.producers hproducer)
  · rw [hlisting]
    exact htakes.merges_perm.trans
      ((hmerges.table.append_left _).trans htakes.popsSlots.table.symm)
  · rw [hlisting]
    exact htakes.several hmerges
  · rw [hlisting]
    exact htakes.apart hmerges
  · intro anchor incoming hnode
    rcases htakes.mem_nodes_iff.1 hnode with hown | ⟨_, harg⟩ | hold
    · cases hown
    · exact ⟨_, htakes.mem_nodes_iff.2 (Or.inl rfl), harg⟩
    · obtain ⟨parent, hparent, hoperand⟩ := hmerges.consumed anchor incoming hold
      exact ⟨parent, htakes.mem_nodes_iff.2 (Or.inr (Or.inr hparent)), hoperand⟩
  · intro parent hparent anchor incoming hoperand
    rcases htakes.mem_nodes_iff.1 hparent with rfl | ⟨hnone, _⟩ | hold
    · exact htakes.anchor_le hcode hsplit hoperand
    · cases parent with
      | op address opcode operand args => cases hnone
      | phi other values => cases hoperand
    · exact hmerges.reached parent hold anchor incoming hoperand

end Takes

theorem MergesMatchTable.visitAll {draft final : Draft} {engine walked : Engine}
    {code visited part rest : List Instruction} (hmerges : draft.MergesMatchTable code)
    (hholds : draft.HoldsVisited engine code visited) (hcode : Checked code)
    (hsplit : code = visited ++ (part ++ rest))
    (hvisit : engine.visitAll draft part = (walked, .ok final)) : final.MergesMatchTable code := by
  induction part generalizing engine draft visited with
  | nil =>
      cases hvisit
      exact hmerges
  | cons instruction more ih =>
      obtain ⟨pushed, next, hfirst, hrest⟩ := Engine.visitAll_cons_eq_ok hvisit
      have hmore : code = visited ++ [instruction] ++ (more ++ rest) := by
        rw [hsplit, List.append_assoc, List.singleton_append, List.cons_append]
      have hnext := (hholds.lifts hcode hsplit hfirst).1
      obtain ⟨intake, htakes, rfl, rfl⟩ := hholds.takes hcode hsplit hfirst
      exact ih (htakes.mergesMatchTable hcode hsplit hmerges) hnext hmore hrest

end Draft

theorem Engine.Walks.mergesMatchTable {engine walked : Engine} {method : Method} {listing : Listing}
    {draft : Draft} (hwalks : engine.Walks method listing walked draft) :
    draft.MergesMatchTable method.instructions.toList :=
  (Draft.mergesMatchTable_start hwalks.listed _).visitAll hwalks.start hwalks.checked
    (List.append_nil _).symm hwalks.visit

/-- A walk that leaves neither values nor phi sets behind lifts the method, and its labels
are the targets of the jumps. -/
theorem Engine.Walks.lift_of_phis {engine walked : Engine} {method : Method}
    {listing : Listing} {draft : Draft} (hwalks : engine.Walks method listing walked draft)
    (hpending : draft.pending = []) (hphis : draft.listing.phis = ∅) :
    ∃ lifted, (engine.lift method).2 = .ok lifted ∧
      lifted.statements.map Statement.expr = draft.roots.reverse ∧ lifted.phis = [] ∧
      lifted.labels.Pairwise (· < ·) ∧
      ∀ address, address ∈ lifted.labels ↔
        ∃ jump ∈ method.instructions.toList, jump.jumpTarget? = some address := by
  have hindex := hwalks.holdsVisited.tracks.indexes
  rw [hwalks.lift_eq]
  refine ⟨_, hwalks.holdsVisited.finish_of_pending hpending method, map_expr_placeLabels _ _ _,
    Listing.phiTable_of_phis hphis, hindex.pairwise_labels hwalks.checked, ?_⟩
  exact fun _ => hwalks.mergesMatchTable.listing.mem_labels_iff_of_phis hindex hwalks.checked hphis

theorem Draft.HoldsVisited.follows {draft : Draft} {engine : Engine}
    {code visited : List Instruction} (hholds : draft.HoldsVisited engine code visited)
    (hcode : Checked code) {consumer : Address} {phi : Phi}
    (hphi : draft.listing.phiAt? consumer = some phi) :
    ∃ before last following after, code = before ++ last :: following :: after ∧
      last.address ∈ phi.values ∧ (∀ value ∈ phi.values, value ≤ last.address) ∧
      following.address = consumer := by
  obtain ⟨_, anchor, hanchor, hnext⟩ := hholds.tracks.merged consumer phi hphi
  obtain ⟨before, last, following, after, hsplit, rfl, hfollowing⟩ :=
    hholds.tracks.indexes.exists_split_of_next? hcode hnext
  obtain ⟨hmem, hgreatest⟩ := Phi.anchor?_eq_some_iff.1 hanchor
  exact ⟨before, last, following, after, hsplit, hmem, hgreatest, hfollowing⟩

namespace LiftedMethod

/-- The table of phi sets and the merges in the trees tell the same. -/
structure PhisMatchTrees (lifted : LiftedMethod) (code : List Instruction) : Prop where
  /-- No consumer has two entries. -/
  increasing : (lifted.phis.map Prod.fst).Pairwise (· < ·)
  /-- Entries and merges are the same, with values and labels in the same order. -/
  table : (lifted.nodes.filterMap Expr.merge?).Perm lifted.phis
  /-- What is merged are instructions. -/
  merged : ∀ anchor incoming, .phi anchor incoming ∈ lifted.nodes → ∀ entry ∈ incoming,
    ∃ instruction ∈ code, entry.2.op? = some instruction
  several : ∀ entry ∈ lifted.phis,
    2 ≤ entry.2.values.length ∧ entry.2.labels.length = entry.2.values.length
  /-- No value stands in two entries or twice in one. -/
  apart : (lifted.phis.flatMap fun entry => entry.2.values).Nodup
  /-- The consumer is the instruction behind the last value. -/
  follows : ∀ entry ∈ lifted.phis, ∃ before last following after,
    code = before ++ last :: following :: after ∧ last.address ∈ entry.2.values ∧
      (∀ value ∈ entry.2.values, value ≤ last.address) ∧ following.address = entry.1
  consumed : ∀ anchor incoming, .phi anchor incoming ∈ lifted.nodes →
    ∃ parent ∈ lifted.nodes, .phi anchor incoming ∈ parent.operands
  reached : ∀ parent ∈ lifted.nodes, ∀ anchor incoming,
    .phi anchor incoming ∈ parent.operands → anchor ≤ parent.address
  labelled : ∀ entry ∈ lifted.phis, ∀ alternative ∈ entry.2.alternatives,
    alternative.label ≤ alternative.value ∧ alternative.label ∈ lifted.labels

theorem nodes_subset {lifted : LiftedMethod} {node : Expr} (hnode : node ∈ lifted.nodes) :
    node.nodes ⊆ lifted.nodes := by
  obtain ⟨expr, hexpr, hnode⟩ := List.mem_flatMap.1 hnode
  exact fun inner hinner =>
    List.mem_flatMap.2 ⟨expr, hexpr, expr.nodes_subset_of_mem hnode hinner⟩

/-- What a well-formed merge merges are instructions of the method. -/
theorem exists_instruction_of_mem {engine : Engine} {method : Method} {lifted : LiftedMethod}
    (hlifted : (engine.lift method).2 = .ok lifted) {anchor : Address}
    {incoming : List (Address × Expr)} (hnode : .phi anchor incoming ∈ lifted.nodes)
    {entry : Address × Expr} (hentry : entry ∈ incoming) :
    ∃ instruction ∈ method.instructions.toList, entry.2.op? = some instruction := by
  obtain ⟨instruction, hop⟩ :=
    Option.isSome_iff_exists.1 ((wellFormed hlifted hnode).2 entry hentry)
  refine ⟨instruction, (ops_perm hlifted).mem_iff.1 ?_, hop⟩
  refine List.mem_filterMap.2 ⟨entry.2, nodes_subset hnode ?_, hop⟩
  rw [Expr.nodes_phi]
  exact List.mem_cons_of_mem _
    (List.mem_flatMap.2 ⟨entry.2, List.mem_map_of_mem hentry, entry.2.mem_nodes_self⟩)

end LiftedMethod

/-- In a lifted method there is one merge for each entry of the table, an operand of an
instruction at the entry's consumer or behind it. -/
theorem Engine.phisMatchTrees_of_lift_eq_ok (engine : Engine) (method : Method)
    (lifted : LiftedMethod) (hlifted : (engine.lift method).2 = .ok lifted) :
    lifted.PhisMatchTrees method.instructions.toList := by
  obtain ⟨listing, walked, draft, hwalks, hpending, rfl⟩ :=
    Engine.exists_walks_of_lift_eq_ok hlifted
  have hmerges := hwalks.mergesMatchTable
  have hnodes : (LiftedMethod.mk method.displayName
      (placeLabels draft.listing.labels none draft.roots.reverse) draft.listing.phiTable
      draft.listing.labels).nodes.Perm draft.nodes := by
    rw [LiftedMethod.nodes, map_expr_placeLabels, Draft.nodes, hpending, List.map_nil,
      List.nil_append]
    exact (List.reverse_perm draft.roots).flatMap_right Expr.nodes
  refine ⟨draft.listing.pairwise_phiTable, (hnodes.filterMap _).trans hmerges.table,
    fun _ _ hnode _ hentry => LiftedMethod.exists_instruction_of_mem hlifted hnode hentry,
    fun entry hentry => ⟨hmerges.several entry hentry, entry.2.length_labels⟩, hmerges.apart,
    fun entry hentry =>
      hwalks.holdsVisited.follows hwalks.checked (Listing.mem_phiTable_iff.1 hentry), ?_, ?_,
    fun entry hentry =>
      hmerges.listing.labelled entry.1 entry.2 (Listing.mem_phiTable_iff.1 hentry)⟩
  · intro anchor incoming hnode
    obtain ⟨parent, hparent, hoperand⟩ :=
      hmerges.consumed anchor incoming (hnodes.mem_iff.1 hnode)
    exact ⟨parent, hnodes.mem_iff.2 hparent, hoperand⟩
  · intro parent hparent
    exact hmerges.reached parent (hnodes.mem_iff.1 hparent)

/-- The two constants of the choice are merged for its store. -/
theorem Engine.phisMatchTrees_of_lift_choice :
    (Engine.new.lift Method.choice).2 = .ok LiftedMethod.choice ∧
      LiftedMethod.choice.phis = [(⟨5⟩, ⟨[⟨⟨4⟩, ⟨4⟩⟩, ⟨⟨2⟩, ⟨2⟩⟩]⟩)] ∧
      LiftedMethod.choice.PhisMatchTrees Method.choice.instructions.toList :=
  ⟨Engine.lift_choice, rfl, Engine.phisMatchTrees_of_lift_eq_ok _ _ _ Engine.lift_choice⟩

end StackLift
