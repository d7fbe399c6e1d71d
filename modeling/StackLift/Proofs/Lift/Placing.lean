import StackLift.Proofs.Lift.Merges

/-!
# Labels before statements

The labels of a lifted method are the targets of its jumps and the labels of its phi
sets.  They are handed out by address: each statement gets those from behind the
statement before it up to its own address.  The last instruction of a lifted method
leaves nothing on the stack and is therefore a statement, so no label lies behind the
last statement, and each one is listed exactly once.
-/

namespace StackLift

/-! ## Handing out labels -/

theorem filter_append_filter_of_pairwise {labels : List Address}
    (hlabels : labels.Pairwise (· < ·)) (bound : Address) (early late : Address → Bool) :
    labels.filter (fun label => decide (label ≤ bound) && early label) ++
        labels.filter (fun label => late label && decide (bound < label)) =
      labels.filter fun label => if label ≤ bound then early label else late label := by
  induction labels with
  | nil => rfl
  | cons label rest ih =>
      obtain ⟨hbehind, hrest⟩ := List.pairwise_cons.1 hlabels
      by_cases hle : label ≤ bound
      · have hlate : (late label && decide (bound < label)) = false := by
          simp [not_lt.2 hle]
        simp only [List.filter_cons, hle, decide_true, Bool.true_and, hlate, if_true]
        cases early label <;> simp [ih hrest]
      · -- all that follows lies behind the bound as well, so nothing comes early
        have hlt : ∀ other ∈ label :: rest, bound < other := by
          intro other hother
          rcases List.mem_cons.1 hother with rfl | hlater
          · exact not_le.1 hle
          · exact lt_trans (not_le.1 hle) (hbehind other hlater)
        have hnone : (label :: rest).filter
            (fun label => decide (label ≤ bound) && early label) = [] := by
          rw [List.filter_eq_nil_iff]
          intro other hother
          simp [not_le.2 (hlt other hother)]
        rw [hnone, List.nil_append]
        apply List.filter_congr
        intro other hother
        simp [hlt other hother, not_le.2 (hlt other hother)]

/-- The statements list, in order, the labels from behind the previous statement up to the
last one. -/
theorem flatMap_labels_placeLabels {labels : List Address} (hlabels : labels.Pairwise (· < ·))
    {roots : List Expr} (hroots : (roots.map Expr.address).Pairwise (· < ·))
    (previous : Option Address)
    (hprevious : ∀ before ∈ previous, ∀ root ∈ roots, before < root.address) :
    (placeLabels labels previous roots).flatMap Statement.labels =
      labels.filter fun label => (roots.any fun root => label ≤ root.address) &&
        previous.all fun before => before < label := by
  induction roots generalizing previous with
  | nil => simp [placeLabels]
  | cons root rest ih =>
      obtain ⟨hlater, hrest⟩ := List.pairwise_cons.1 hroots
      have hnext : ∀ before ∈ some root.address, ∀ later ∈ rest, before < later.address := by
        rintro before ⟨⟩ later hmem
        exact hlater _ (List.mem_map_of_mem hmem)
      have hsplit := filter_append_filter_of_pairwise hlabels root.address
        (fun label => previous.all fun before => before < label)
        (fun label => rest.any fun later => label ≤ later.address)
      rw [placeLabels, List.flatMap_cons, ih hrest _ hnext]
      simp only [Option.all_some]
      rw [hsplit]
      apply List.filter_congr
      intro label _
      by_cases hle : label ≤ root.address
      · simp [hle]
      · have hbehind : (previous.all fun before => decide (before < label)) = true := by
          cases previous with
          | none => rfl
          | some before =>
              exact decide_eq_true
                (lt_trans (hprevious before rfl root List.mem_cons_self) (not_le.1 hle))
        simp [hle, hbehind]

/-- A label that lies up to some statement is listed on the first such statement. -/
theorem exists_first_of_placeLabels {labels : List Address} {label : Address}
    (hlabel : label ∈ labels) {roots : List Expr} (previous : Option Address)
    (hprevious : ∀ before ∈ previous, before < label)
    (hroot : ∃ root ∈ roots, label ≤ root.address) :
    ∃ before statement after, placeLabels labels previous roots = before ++ statement :: after ∧
      label ∈ statement.labels ∧ label ≤ statement.address ∧
      ∀ earlier ∈ before, earlier.address < label := by
  induction roots generalizing previous with
  | nil =>
      obtain ⟨root, hmem, _⟩ := hroot
      cases hmem
  | cons first rest ih =>
      rw [placeLabels]
      by_cases hle : label ≤ first.address
      · refine ⟨[], _, _, rfl, ?_, hle, by simp⟩
        have hbehind : (previous.all fun before => decide (before < label)) = true := by
          cases previous with
          | none => rfl
          | some before => exact decide_eq_true (hprevious before rfl)
        rw [List.mem_filter]
        exact ⟨hlabel, by simp [hle, hbehind]⟩
      · have hrest : ∃ root ∈ rest, label ≤ root.address := by
          obtain ⟨root, hmem, hroot⟩ := hroot
          rcases List.mem_cons.1 hmem with rfl | hmem
          · exact absurd hroot hle
          · exact ⟨root, hmem, hroot⟩
        obtain ⟨before, statement, after, heq, hlisted, hreached, hearlier⟩ :=
          ih (some first.address) (by rintro _ ⟨⟩; exact not_le.1 hle) hrest
        refine ⟨_ :: before, statement, after, by rw [heq]; rfl, hlisted, hreached, ?_⟩
        intro earlier hmem
        rcases List.mem_cons.1 hmem with rfl | hmem
        · exact not_le.1 hle
        · exact hearlier earlier hmem

/-! ## The last statement -/

theorem Expr.map_address_of_map_op? {roots : List Expr} {instructions : List Instruction}
    (hroots : roots.map Expr.op? = instructions.map some) :
    roots.map Expr.address = instructions.map Instruction.address := by
  induction roots generalizing instructions with
  | nil =>
      rw [List.map_nil, eq_comm, List.map_eq_nil_iff] at hroots
      rw [hroots, List.map_nil, List.map_nil]
  | cons root rest ih =>
      obtain ⟨instruction, others, rfl, hfirst, hrest⟩ := List.map_eq_cons_iff.1 hroots.symm
      rw [List.map_cons, List.map_cons, Expr.address_of_op? hfirst.symm, ih hrest.symm]

namespace Engine.Walks

variable {engine walked : Engine} {method : Method} {listing : Listing} {draft : Draft}

/-- If no value is left over, then the last instruction leaves none. -/
theorem pushes_last (hwalks : engine.Walks method listing walked draft)
    (hpending : draft.pending = []) {before : List Instruction} {last : Instruction}
    (hsplit : method.instructions.toList = before ++ [last]) : last.pushes = 0 := by
  have hvisit := hwalks.visit
  rw [hsplit] at hvisit
  obtain ⟨reached, next, hbefore, hlast⟩ := Engine.visitAll_append_eq_ok hvisit
  obtain ⟨pushed, final, hlast, hdone⟩ := Engine.visitAll_cons_eq_ok hlast
  cases hdone
  have hholds := hwalks.start.of_visitAll hwalks.checked hsplit hbefore
  obtain ⟨intake, _, _, rfl⟩ := hholds.takes hwalks.checked hsplit hlast
  by_contra hpushes
  rw [Intake.draft, Draft.add, if_pos (Nat.pos_of_ne_zero hpushes)] at hpending
  cases hpending

/-- The statements are the instructions that leave nothing on the stack. -/
theorem map_address_roots (hwalks : engine.Walks method listing walked draft) :
    draft.roots.reverse.map Expr.address =
      (method.instructions.toList.filter fun instruction => instruction.pushes = 0).map
        Instruction.address :=
  Expr.map_address_of_map_op? hwalks.holdsVisited.roots

theorem pairwise_roots (hwalks : engine.Walks method listing walked draft) :
    (draft.roots.reverse.map Expr.address).Pairwise (· < ·) := by
  rw [hwalks.map_address_roots, List.pairwise_map]
  exact hwalks.checked.increasing.filter _

theorem exists_root_ge (hwalks : engine.Walks method listing walked draft)
    (hpending : draft.pending = []) {address : Address}
    (haddress : address ∈ method.instructions.toList.map Instruction.address) :
    ∃ root ∈ draft.roots.reverse, address ≤ root.address := by
  obtain ⟨instruction, hmem, rfl⟩ := List.mem_map.1 haddress
  obtain ⟨before, last, hsplit⟩ : ∃ before last,
      method.instructions.toList = before ++ [last] :=
    ⟨_, _, (List.dropLast_append_getLast (List.ne_nil_of_mem hmem)).symm⟩
  have hlast : last.address ∈ draft.roots.reverse.map Expr.address := by
    rw [hwalks.map_address_roots]
    refine List.mem_map_of_mem (List.mem_filter.2 ⟨?_, ?_⟩)
    · rw [hsplit]
      exact List.mem_append_right _ (List.mem_singleton_self _)
    · exact decide_eq_true (hwalks.pushes_last hpending hsplit)
  obtain ⟨root, hroot, heq⟩ := List.mem_map.1 hlast
  refine ⟨root, hroot, heq ▸ ?_⟩
  have hincreasing := hwalks.checked.increasing
  rw [hsplit] at hmem hincreasing
  rcases List.mem_append.1 hmem with hearlier | hown
  · exact le_of_lt ((List.pairwise_append.1 hincreasing).2.2 instruction hearlier last
      (List.mem_singleton_self _))
  · rw [List.mem_singleton.1 hown]

end Engine.Walks

/-- The labels of a lifted method are what its jumps and phi sets need, and each of them
stands before one statement. -/
structure LiftedMethod.Placed (lifted : LiftedMethod) (code : List Instruction) : Prop where
  /-- Labels are the targets of jumps and the labels of alternatives. -/
  needed : ∀ address, address ∈ lifted.labels ↔
    (∃ jump ∈ code, jump.jumpTarget? = some address) ∨
      ∃ entry ∈ lifted.phis, address ∈ entry.2.labels
  increasing : lifted.labels.Pairwise (· < ·)
  listed : lifted.statements.flatMap Statement.labels = lifted.labels
  /-- A label is listed on the first statement at or behind it. -/
  first : ∀ label ∈ lifted.labels, ∃ before statement after,
    lifted.statements = before ++ statement :: after ∧ label ∈ statement.labels ∧
      label ≤ statement.address ∧ ∀ earlier ∈ before, earlier.address < label
  landing : ∀ jump ∈ code, ∀ target, jump.jumpTarget? = some target →
    ∃ statement ∈ lifted.statements, target ∈ statement.labels

/-- A lifted method shows each of its labels once, on the first statement at or behind
it. -/
theorem Engine.placed_of_lift_eq_ok (engine : Engine) (method : Method)
    (lifted : LiftedMethod) (hlifted : (engine.lift method).2 = .ok lifted) :
    lifted.Placed method.instructions.toList := by
  obtain ⟨listing, walked, draft, hwalks, hpending, rfl⟩ :=
    Engine.exists_walks_of_lift_eq_ok hlifted
  have hindex := hwalks.holdsVisited.tracks.indexes
  have hincreasing := hindex.pairwise_labels hwalks.checked
  have hneeded : ∀ address, address ∈ draft.listing.labels ↔
      (∃ jump ∈ method.instructions.toList, jump.jumpTarget? = some address) ∨
        ∃ entry ∈ draft.listing.phiTable, address ∈ entry.2.labels := by
    intro address
    rw [hwalks.mergesMatchTable.listing.mem_labels_iff hindex hwalks.checked]
    simp only [Prod.exists, Listing.mem_phiTable_iff]
  have hreached : ∀ label ∈ draft.listing.labels,
      ∃ root ∈ draft.roots.reverse, label ≤ root.address :=
    fun label hlabel => hwalks.exists_root_ge hpending (hindex.mem_labels_iff.1 hlabel).1
  have hfirst : ∀ label ∈ draft.listing.labels, ∃ before statement after,
      placeLabels draft.listing.labels none draft.roots.reverse =
        before ++ statement :: after ∧ label ∈ statement.labels ∧
      label ≤ statement.address ∧ ∀ earlier ∈ before, earlier.address < label :=
    fun label hlabel => exists_first_of_placeLabels hlabel none (by simp) (hreached label hlabel)
  refine ⟨hneeded, hincreasing, ?_, hfirst, ?_⟩
  · rw [flatMap_labels_placeLabels hincreasing hwalks.pairwise_roots none (by simp),
      List.filter_eq_self]
    intro label hlabel
    obtain ⟨root, hroot, hle⟩ := hreached label hlabel
    simp only [Option.all_none, Bool.and_true, List.any_eq_true, decide_eq_true_eq]
    exact ⟨root, hroot, hle⟩
  · intro jump hjump target htarget
    obtain ⟨before, statement, after, heq, hlisted, _⟩ :=
      hfirst target ((hneeded target).2 (Or.inl ⟨jump, hjump, htarget⟩))
    refine ⟨statement, ?_, hlisted⟩
    rw [heq]
    exact List.mem_append_right _ List.mem_cons_self

/-- Of the labels of the choice, one is there for its phi set alone, and the store shows
two. -/
theorem Engine.placed_of_lift_choice :
    (Engine.new.lift Method.choice).2 = .ok LiftedMethod.choice ∧
      LiftedMethod.choice.statements.map Statement.labels = [[], [⟨2⟩], [⟨4⟩, ⟨5⟩], []] ∧
      LiftedMethod.choice.Placed Method.choice.instructions.toList :=
  ⟨Engine.lift_choice, rfl, Engine.placed_of_lift_eq_ok _ _ _ Engine.lift_choice⟩

end StackLift
