import StackLift.Proofs.Listing.Checked

/-!
# Labels and phi sets of a listing

The notes of a listing are consistent: every alternative of a phi set has a label at or
before its value, and every address that was linked is the label of an alternative.
Gathering values and attaching their phi set keeps them so.  Where there is no phi set,
the labels are therefore the targets of the jumps.
-/

namespace StackLift.Listing

variable {listing : Listing} {code : List Instruction}

theorem Indexes.mem_labels_iff (hindex : listing.Indexes code) {address : Address} :
    address ∈ listing.labels ↔
      address ∈ code.map Instruction.address ∧ listing.isLabel address = true := by
  rw [labels, List.mem_filter, hindex.instructions_eq]

theorem Indexes.pairwise_labels (hindex : listing.Indexes code) (hcode : Checked code) :
    listing.labels.Pairwise (· < ·) := by
  rw [labels, hindex.instructions_eq]
  exact (List.pairwise_map.2 hcode.increasing).filter _

theorem isLabel_eq_true_iff {address : Address} :
    listing.isLabel address = true ↔
      listing.jumpsTo address ≠ [] ∨ listing.linksTo address ≠ [] := by
  simp [isLabel]

theorem Indexes.jumpsTo_ne_nil_iff (hindex : listing.Indexes code) {target : Address} :
    listing.jumpsTo target ≠ [] ↔ ∃ jump ∈ code, jump.jumpTarget? = some target := by
  rw [hindex.jumpsTo_eq, ne_eq, List.map_eq_nil_iff, List.filter_eq_nil_iff]
  simp

/-! ## Where a block and where an expression begins -/

theorem blockStartAt?_eq_some {place : Nat} {label : Address}
    (hstart : listing.blockStartAt? place = some label) :
    listing.isLabel label = true ∧
      ∃ start ≤ place, (listing.instructions[start]?).map Instruction.address = some label := by
  fun_induction listing.blockStartAt? place with
  | case1 place hnone => cases hstart
  | case2 place instruction hplace hlabel =>
      rw [Option.some.injEq] at hstart
      subst hstart
      exact ⟨hlabel, place, Nat.le_refl _, by rw [hplace, Option.map_some]⟩
  | case3 instruction hplace hlabel => cases hstart
  | case4 instruction hlabel before hplace hends => cases hstart
  | case5 instruction hlabel before hplace hends ih =>
      obtain ⟨hfound, start, hle, haddress⟩ := ih hstart
      exact ⟨hfound, start, Nat.le_succ_of_le hle, haddress⟩

theorem Indexes.blockStart?_eq_some (hindex : listing.Indexes code) (hcode : Checked code)
    {address label : Address} (hstart : listing.blockStart? address = some label) :
    label ≤ address ∧ label ∈ listing.labels := by
  obtain ⟨place, hplace, hstart⟩ := Option.bind_eq_some_iff.1 hstart
  obtain ⟨hlabel, start, hle, hfound⟩ := blockStartAt?_eq_some hstart
  rw [hindex.getElem?_instructions] at hfound
  rw [hindex.getElem?_index hcode] at hplace
  refine ⟨?_, hindex.mem_labels_iff.2 ⟨?_, hlabel⟩⟩
  · obtain ⟨found, hgetFound, rfl⟩ := Option.map_eq_some_iff.1 hfound
    obtain ⟨last, hgetLast, rfl⟩ := Option.map_eq_some_iff.1 hplace
    obtain ⟨hstartLt, rfl⟩ := List.getElem?_eq_some_iff.1 hgetFound
    obtain ⟨hplaceLt, rfl⟩ := List.getElem?_eq_some_iff.1 hgetLast
    rcases Nat.eq_or_lt_of_le hle with heq | hlt
    · subst heq
      exact le_refl _
    · exact le_of_lt (List.pairwise_iff_getElem.1 hcode.increasing _ _ hstartLt hplaceLt hlt)
  · rw [List.mem_iff_getElem?]
    exact ⟨start, by rw [List.getElem?_map, hfound]⟩

theorem groupStart_le (listing : Listing) (address : Address) :
    listing.groupStart address ≤ address := by
  fun_induction listing.groupStart address with
  | case1 address first hfirst hlt ih => exact le_trans ih (le_of_lt hlt)
  | case2 address first hfirst hlt => exact le_refl _
  | case3 address hnone => exact le_refl _

/-- All producers that have been taken down are instructions. -/
def ProducersWithin (listing : Listing) (code : List Instruction) : Prop :=
  ∀ address, ∀ producer ∈ listing.producersOf address, producer ∈ code.map Instruction.address

theorem groupStart_mem (hproducers : listing.ProducersWithin code) {address : Address}
    (haddress : address ∈ code.map Instruction.address) :
    listing.groupStart address ∈ code.map Instruction.address := by
  fun_induction listing.groupStart address with
  | case1 address first hfirst hlt ih =>
      exact ih (hproducers address first (List.mem_of_mem_head? hfirst))
  | case2 address first hfirst hlt => exact haddress
  | case3 address hnone => exact haddress

/-! ## Labels for alternatives -/

/-- The later listing has got labels for the given alternatives and no other link. -/
structure Labels (earlier : Listing) (alternatives : List Alternative)
    (later : Listing) : Prop where
  kept : ∀ address ∈ earlier.labels, address ∈ later.labels
  labelled : ∀ alternative ∈ alternatives,
    alternative.label ≤ alternative.value ∧ alternative.label ∈ later.labels
  linked : ∀ address, later.linksTo address ≠ [] →
    earlier.linksTo address ≠ [] ∨ address ∈ alternatives.map Alternative.label

theorem Labels.refl (listing : Listing) : listing.Labels [] listing :=
  ⟨fun _ haddress => haddress, by simp, fun _ hlinked => Or.inl hlinked⟩

theorem Labels.trans {first middle last : Listing} {some more : List Alternative}
    (hfirst : first.Labels some middle) (hsecond : middle.Labels more last) :
    first.Labels (some ++ more) last where
  kept address haddress := hsecond.kept address (hfirst.kept address haddress)
  labelled alternative halternative := by
    rcases List.mem_append.1 halternative with hsome | hmore
    · obtain ⟨hle, hlabel⟩ := hfirst.labelled alternative hsome
      exact ⟨hle, hsecond.kept _ hlabel⟩
    · exact hsecond.labelled alternative hmore
  linked address hlinked := by
    rw [List.map_append, List.mem_append]
    rcases hsecond.linked address hlinked with hmiddle | hmore
    · exact (hfirst.linked address hmiddle).imp_right Or.inl
    · exact Or.inr (Or.inr hmore)

theorem linksTo_link_ne_nil_iff {address source other : Address} :
    (listing.link address source).linksTo other ≠ [] ↔
      other = address ∨ listing.linksTo other ≠ [] := by
  rw [linksTo_link]
  split
  · next hnew => simp [hnew.1]
  · next hold =>
    refine ⟨Or.inr, ?_⟩
    rintro (rfl | hlinked)
    · -- the address keeps its links only if the source is one of them already
      have hmem : source ∈ listing.linksTo other := by
        by_contra hsource
        exact hold ⟨rfl, hsource⟩
      exact List.ne_nil_of_mem hmem
    · exact hlinked

theorem labels_link {address value : Address} (hle : address ≤ value)
    (hindex : listing.Indexes code) (haddress : address ∈ code.map Instruction.address) :
    listing.Labels [⟨value, address⟩] (listing.link address value) := by
  have hinstructions : (listing.link address value).instructions = listing.instructions := by
    rw [link]
    split <;> rfl
  have hmem : ∀ other, other ∈ (listing.link address value).labels ↔
      other ∈ code.map Instruction.address ∧
        (listing.isLabel other = true ∨ other = address) := by
    intro other
    rw [labels, List.mem_filter, hinstructions, hindex.instructions_eq, isLabel_eq_true_iff,
      isLabel_eq_true_iff, jumpsTo_link, linksTo_link_ne_nil_iff, or_assoc]
    tauto
  refine ⟨?_, ?_, ?_⟩
  · intro other hother
    rw [hindex.mem_labels_iff] at hother
    exact (hmem other).2 ⟨hother.1, Or.inl hother.2⟩
  · intro alternative halternative
    rw [List.mem_singleton.1 halternative]
    exact ⟨hle, (hmem address).2 ⟨haddress, Or.inr rfl⟩⟩
  · intro other hlinked
    rw [List.map_singleton, List.mem_singleton]
    exact (linksTo_link_ne_nil_iff.1 hlinked).symm

/-! ## Gathering -/

theorem link_eq (listing : Listing) (address source : Address) :
    ∃ links, listing.link address source = { listing with links := links } := by
  rw [link]
  split
  · exact ⟨listing.links, rfl⟩
  · exact ⟨_, rfl⟩

theorem addAlternative_eq (listing : Listing) (phi : Phi) (value : Address) :
    ∃ links label,
      listing.addAlternative phi value =
        ({ listing with links := links }, phi.add value label) := by
  rw [addAlternative]
  split
  · next label _ => exact ⟨listing.links, label, rfl⟩
  · obtain ⟨links, hlinks⟩ := listing.link_eq (listing.groupStart value) value
    exact ⟨links, listing.groupStart value, by simp only [hlinks]⟩

theorem foldl_addAlternative_eq (values : List Address) (listing : Listing) (phi : Phi) :
    ∃ links gathered,
      values.foldl (fun state value => state.1.addAlternative state.2 value)
          (listing, phi) = ({ listing with links := links }, gathered) ∧
        gathered.values = phi.values ++ values := by
  induction values generalizing listing phi with
  | nil => exact ⟨listing.links, phi, rfl, (List.append_nil _).symm⟩
  | cons value rest ih =>
      obtain ⟨links, label, hfirst⟩ := listing.addAlternative_eq phi value
      obtain ⟨final, gathered, hrest, hvalues⟩ :=
        ih { listing with links := links } (phi.add value label)
      refine ⟨final, gathered, ?_, ?_⟩
      · rw [List.foldl_cons, hfirst, hrest]
      · rw [hvalues, Phi.values_add, List.append_assoc, List.singleton_append]

/-- Gathering changes links only, and the phi set has the given values. -/
theorem gather_eq (listing : Listing) (values : List Address) :
    ∃ links phi,
      listing.gather values = ({ listing with links := links }, phi) ∧
        phi.values = values :=
  listing.foldl_addAlternative_eq values .empty

theorem Indexes.withNotes {listing : Listing} {code : List Instruction}
    (hindex : listing.Indexes code) (producers links : Std.TreeMap Address (List Address))
    (phis : Std.TreeMap Address Phi) :
    ({ listing with producers := producers, links := links, phis := phis } :
      Listing).Indexes code :=
  ⟨hindex.instructions_eq, hindex.index_eq, hindex.incoming_eq⟩

/-- Every alternative gets a label, an old one or one at the start of its expression. -/
theorem labels_addAlternative (hindex : listing.Indexes code) (hcode : Checked code)
    (hproducers : listing.ProducersWithin code) (phi : Phi) {value : Address}
    (hvalue : value ∈ code.map Instruction.address) :
    ∃ links label,
      listing.addAlternative phi value = ({ listing with links := links }, phi.add value label) ∧
        listing.Labels [⟨value, label⟩] { listing with links := links } := by
  rw [addAlternative]
  split
  · next label hstart =>
    obtain ⟨hle, hlabel⟩ := hindex.blockStart?_eq_some hcode hstart
    refine ⟨listing.links, label, rfl, fun _ haddress => haddress, ?_,
      fun _ hlinked => Or.inl hlinked⟩
    intro alternative halternative
    rw [List.mem_singleton.1 halternative]
    exact ⟨hle, hlabel⟩
  · have hlabels := labels_link (listing.groupStart_le value) hindex
      (groupStart_mem hproducers hvalue)
    obtain ⟨links, hlinks⟩ := listing.link_eq (listing.groupStart value) value
    rw [hlinks] at hlabels
    exact ⟨links, _, by simp only [hlinks], hlabels⟩

theorem labels_foldl (hindex : listing.Indexes code) (hcode : Checked code)
    (hproducers : listing.ProducersWithin code) (phi : Phi) (values : List Address)
    (hvalues : ∀ value ∈ values, value ∈ code.map Instruction.address) :
    ∃ added,
      (values.foldl (fun state value => state.1.addAlternative state.2 value)
        (listing, phi)).2.alternatives = phi.alternatives ++ added ∧
      listing.Labels added (values.foldl
        (fun state value => state.1.addAlternative state.2 value) (listing, phi)).1 := by
  induction values generalizing listing phi with
  | nil => exact ⟨[], (List.append_nil _).symm, .refl listing⟩
  | cons value rest ih =>
      obtain ⟨links, label, heq, hlabels⟩ :=
        labels_addAlternative hindex hcode hproducers phi (hvalues value List.mem_cons_self)
      have hnext : ({ listing with links := links } : Listing).Indexes code :=
        hindex.withNotes _ _ _
      obtain ⟨added, halternatives, hrest⟩ := ih hnext hproducers (phi.add value label)
        fun other hother => hvalues other (List.mem_cons_of_mem _ hother)
      refine ⟨⟨value, label⟩ :: added, ?_, ?_⟩
      · rw [List.foldl_cons, heq, halternatives, Phi.add, List.append_assoc,
          List.singleton_append]
      · rw [List.foldl_cons, heq]
        exact hlabels.trans hrest

/-- Gathered values get labels. -/
theorem labels_gather (hindex : listing.Indexes code) (hcode : Checked code)
    (hproducers : listing.ProducersWithin code) {values : List Address}
    (hvalues : ∀ value ∈ values, value ∈ code.map Instruction.address)
    {labelled : Listing} {phi : Phi} (hgather : listing.gather values = (labelled, phi)) :
    listing.Labels phi.alternatives labelled := by
  obtain ⟨added, halternatives, hlabels⟩ :=
    labels_foldl hindex hcode hproducers .empty values hvalues
  rw [← gather, hgather] at halternatives hlabels
  rw [halternatives]
  exact hlabels

/-! ## The table of phi sets -/

theorem mem_phiTable_iff {entry : Address × Phi} :
    entry ∈ listing.phiTable ↔ listing.phiAt? entry.1 = some entry.2 :=
  Std.TreeMap.mem_toList_iff_getElem?_eq_some

theorem phiTable_of_phis (hphis : listing.phis = ∅) : listing.phiTable = [] := by
  rw [phiTable, hphis]
  rfl

theorem pairwise_phiTable (listing : Listing) :
    (listing.phiTable.map Prod.fst).Pairwise (· < ·) := by
  rw [List.pairwise_map]
  exact Std.TreeMap.ordered_keys_toList.imp fun hlt => compare_lt_iff_lt.1 hlt

/-- A phi set that is taken down for a new consumer is one more entry. -/
theorem phiTable_insert_perm {consumer : Address} (hfree : listing.phiAt? consumer = none)
    (links : Std.TreeMap Address (List Address)) (phi : Phi) :
    ({ listing with links := links, phis := listing.phis.insert consumer phi } :
      Listing).phiTable.Perm ((consumer, phi) :: listing.phiTable) := by
  have hperm := Std.TreeMap.toList_insert_perm (t := listing.phis) (k := consumer) (v := phi)
  rw [List.filter_eq_self.2] at hperm
  · exact hperm
  · intro entry hentry
    have hphi := mem_phiTable_iff.1 hentry
    have hne : consumer ≠ entry.1 := by
      rintro rfl
      rw [hfree] at hphi
      cases hphi
    simpa using hne

/-! ## Consistent notes -/

/-- The notes of a listing fit each other. -/
structure NotesConsistent (listing : Listing) (code : List Instruction) : Prop where
  producers : listing.ProducersWithin code
  labelled : ∀ consumer phi, listing.phiAt? consumer = some phi →
    ∀ alternative ∈ phi.alternatives,
      alternative.label ≤ alternative.value ∧ alternative.label ∈ listing.labels
  linked : ∀ address, listing.linksTo address ≠ [] →
    ∃ consumer phi, listing.phiAt? consumer = some phi ∧ address ∈ phi.labels

theorem notesConsistent_of_ofMethod {method : Method} (hlisting : ofMethod method = .ok listing)
    (code : List Instruction) : listing.NotesConsistent code := by
  rw [(ofMethod_eq_ok_iff.1 hlisting).2]
  refine ⟨?_, ?_, ?_⟩
  · intro address producer hproducer
    simp [producersOf] at hproducer
  · intro consumer phi hphi
    simp [phiAt?] at hphi
  · intro address hlinked
    simp [linksTo] at hlinked

namespace NotesConsistent

theorem setProducers (hnotes : listing.NotesConsistent code) (address : Address)
    {producers : List Address}
    (hproducers : ∀ producer ∈ producers, producer ∈ code.map Instruction.address) :
    ({ listing with producers := listing.producers.insert address producers } :
      Listing).NotesConsistent code := by
  refine ⟨?_, hnotes.labelled, hnotes.linked⟩
  intro other producer hproducer
  rw [producersOf, Std.TreeMap.getD_insert] at hproducer
  split at hproducer
  · exact hproducers producer hproducer
  · exact hnotes.producers other producer hproducer

/-- The phi set of gathered values may be attached where there is none. -/
theorem attach (hnotes : listing.NotesConsistent code) (hindex : listing.Indexes code)
    (hcode : Checked code) {values : List Address}
    (hvalues : ∀ value ∈ values, value ∈ code.map Instruction.address)
    {links : Std.TreeMap Address (List Address)} {phi : Phi} {consumer : Address}
    (hgather : listing.gather values = ({ listing with links := links }, phi))
    (hfree : listing.phiAt? consumer = none) :
    ({ listing with links := links, phis := listing.phis.insert consumer phi } :
      Listing).NotesConsistent code := by
  have hlabels := labels_gather hindex hcode hnotes.producers hvalues hgather
  have hphiAt : ∀ other, ({ listing with
      links := links, phis := listing.phis.insert consumer phi } : Listing).phiAt? other =
        if consumer = other then some phi else listing.phiAt? other := by
    intro other
    rw [phiAt?, Std.TreeMap.getElem?_insert]
    simp only [Std.LawfulEqCmp.compare_eq_iff_eq]
    rfl
  refine ⟨hnotes.producers, ?_, ?_⟩
  · intro other attached hattached alternative halternative
    rw [hphiAt] at hattached
    split at hattached
    · rw [Option.some.injEq] at hattached
      subst hattached
      exact hlabels.labelled alternative halternative
    · obtain ⟨hle, hlabel⟩ := hnotes.labelled other attached hattached alternative halternative
      exact ⟨hle, hlabels.kept _ hlabel⟩
  · intro address hlinked
    rcases hlabels.linked address hlinked with hold | hnew
    · obtain ⟨other, attached, hattached, hlabel⟩ := hnotes.linked address hold
      refine ⟨other, attached, ?_, hlabel⟩
      rw [hphiAt, if_neg, hattached]
      rintro rfl
      rw [hfree] at hattached
      cases hattached
    · exact ⟨consumer, phi, by rw [hphiAt, if_pos rfl], hnew⟩

/-- The labels are the targets of the jumps and the labels of phi sets. -/
theorem mem_labels_iff (hnotes : listing.NotesConsistent code) (hindex : listing.Indexes code)
    (hcode : Checked code) {address : Address} :
    address ∈ listing.labels ↔
      (∃ jump ∈ code, jump.jumpTarget? = some address) ∨
        ∃ consumer phi, listing.phiAt? consumer = some phi ∧ address ∈ phi.labels := by
  constructor
  · intro hlabel
    rw [hindex.mem_labels_iff, isLabel_eq_true_iff, hindex.jumpsTo_ne_nil_iff] at hlabel
    exact hlabel.2.imp_right (hnotes.linked address)
  · rintro (⟨jump, hjump, htarget⟩ | ⟨consumer, phi, hphi, hlabel⟩)
    · rw [hindex.mem_labels_iff, isLabel_eq_true_iff, hindex.jumpsTo_ne_nil_iff]
      exact ⟨hcode.landing jump hjump address htarget, Or.inl ⟨jump, hjump, htarget⟩⟩
    · obtain ⟨alternative, halternative, rfl⟩ := List.mem_map.1 hlabel
      exact (hnotes.labelled consumer phi hphi alternative halternative).2

/-- Without phi sets the labels are the targets of the jumps. -/
theorem mem_labels_iff_of_phis (hnotes : listing.NotesConsistent code)
    (hindex : listing.Indexes code)
    (hcode : Checked code) (hphis : listing.phis = ∅) {address : Address} :
    address ∈ listing.labels ↔ ∃ jump ∈ code, jump.jumpTarget? = some address := by
  rw [hnotes.mem_labels_iff hindex hcode, or_iff_left]
  rintro ⟨consumer, phi, hphi, _⟩
  rw [phiAt?, hphis, Std.TreeMap.getElem?_emptyc] at hphi
  cases hphi

end NotesConsistent

end StackLift.Listing
