import StackLift.Proofs.Listing.Notes
import StackLift.Proofs.Listing.Neighbours

/-!
# The label of a block

The label that opens the block of an instruction is described here without any walk:
it is the nearest label at or before the instruction, and control runs on from it to
the instruction.  `Listing.blockStart?` finds this label and no other, whatever has
been taken down in the listing before.  The walk from instruction to instruction that
looks for it always ends.
-/

namespace StackLift

/-! ## The opening label -/

/-- The label opens the block of the address: from the label up to the address control
simply goes on, and no other label stands on the way. -/
structure Opens (code : List Instruction) (Labelled : Address → Prop)
    (label address : Address) : Prop where
  holds : address ∈ code.map Instruction.address
  label_holds : label ∈ code.map Instruction.address
  le : label ≤ address
  labelled : Labelled label
  runs_on : ∀ instruction ∈ code, label ≤ instruction.address → instruction.address < address →
    instruction.flow.endsBlock = false
  nearest : ∀ other ∈ code.map Instruction.address, label < other → other ≤ address →
    ¬ Labelled other

section Opens

variable {code : List Instruction} {Labelled : Address → Prop} {label address : Address}

/-- A label opens its own block. -/
theorem opens_iff_of_labelled (haddress : address ∈ code.map Instruction.address)
    (hlabelled : Labelled address) : Opens code Labelled label address ↔ address = label := by
  constructor
  · intro hopens
    by_contra hne
    exact hopens.nearest address haddress (lt_of_le_of_ne hopens.le (Ne.symm hne)) le_rfl
      hlabelled
  · rintro rfl
    exact
      { holds := haddress
        label_holds := haddress
        le := le_rfl
        labelled := hlabelled
        runs_on := fun _ _ hle hlt => absurd hlt hle.not_gt
        nearest := fun _ _ hlt hle => absurd hlt hle.not_gt }

theorem Opens.lt_of_unlabelled (hopens : Opens code Labelled label address)
    (hunlabelled : ¬ Labelled address) : label < address := by
  refine lt_of_le_of_ne hopens.le ?_
  rintro rfl
  exact hunlabelled hopens.labelled

/-- The block of an instruction without label is that of the instruction before it,
unless control does not simply go on there. -/
theorem opens_iff_of_unlabelled (hcode : Checked code) {instruction : Instruction}
    (hmem : instruction ∈ code) (haddress : address ∈ code.map Instruction.address)
    (hlt : instruction.address < address)
    (hbetween : ∀ other ∈ code.map Instruction.address, other < address →
      other ≤ instruction.address)
    (hunlabelled : ¬ Labelled address) :
    Opens code Labelled label address ↔
      instruction.flow.endsBlock = false ∧ Opens code Labelled label instruction.address := by
  constructor
  · intro hopens
    have hle : label ≤ instruction.address :=
      hbetween label hopens.label_holds (hopens.lt_of_unlabelled hunlabelled)
    exact ⟨hopens.runs_on instruction hmem hle hlt,
      { holds := List.mem_map_of_mem hmem
        label_holds := hopens.label_holds
        le := hle
        labelled := hopens.labelled
        runs_on := fun other hother hge hbefore =>
          hopens.runs_on other hother hge (hbefore.trans hlt)
        nearest := fun other hother hbehind hbefore =>
          hopens.nearest other hother hbehind (hbefore.trans hlt.le) }⟩
  · rintro ⟨hends, hopens⟩
    exact
      { holds := haddress
        label_holds := hopens.label_holds
        le := hopens.le.trans hlt.le
        labelled := hopens.labelled
        runs_on := by
          intro other hother hge hbefore
          obtain heq | hearlier :=
            (hbetween other.address (List.mem_map_of_mem hother) hbefore).eq_or_lt
          · rw [hcode.eq_of_address_eq hother hmem heq]
            exact hends
          · exact hopens.runs_on other hother hge hearlier
        nearest := by
          intro other hother hbehind hbefore
          obtain rfl | hearlier := hbefore.eq_or_lt
          · exact hunlabelled
          · exact hopens.nearest other hother hbehind (hbetween other hother hearlier) }

end Opens

namespace Listing

variable {listing : Listing} {code : List Instruction}

/-! ## Walking back -/

/-- A walk back from instruction to instruction, with the answer that it ends with.  It
stops at a label, at the first instruction, and behind an instruction after which
control does not simply go on. -/
inductive WalksBack (listing : Listing) : Address → Option Address → Prop where
  | label {address : Address} (hlabel : listing.isLabel address = true) :
      WalksBack listing address (some address)
  | first {address : Address} (hlabel : listing.isLabel address = false)
      (hprevious : listing.previous? address = none) : WalksBack listing address none
  | ended {address previous : Address} {instruction : Instruction}
      (hlabel : listing.isLabel address = false)
      (hprevious : listing.previous? address = some previous)
      (hinstruction : listing.instruction? previous = some instruction)
      (hends : instruction.flow.endsBlock = true) : WalksBack listing address none
  | back {address previous : Address} {instruction : Instruction} {answer : Option Address}
      (hlabel : listing.isLabel address = false)
      (hprevious : listing.previous? address = some previous)
      (hinstruction : listing.instruction? previous = some instruction)
      (hends : instruction.flow.endsBlock = false)
      (hwalks : WalksBack listing previous answer) : WalksBack listing address answer

/-- Two walks from one address end with the same answer. -/
theorem WalksBack.unique {address : Address} {answer other : Option Address}
    (hwalks : WalksBack listing address answer) (hother : WalksBack listing address other) :
    answer = other := by
  induction hwalks generalizing other with
  | label hlabel => cases hother <;> simp_all
  | first hlabel hprevious => cases hother <;> simp_all
  | ended hlabel hprevious hinstruction hends => cases hother <;> simp_all
  | back hlabel hprevious hinstruction hends hwalks ih =>
      cases hother with
      | label hlabelled => simp_all
      | first _ hnone => simp_all
      | ended _ hsame hfound hended => simp_all
      | back _ hsame _ _ hrest =>
          rw [hprevious, Option.some.injEq] at hsame
          exact ih (hsame ▸ hrest)

/-- The answer of a walk is the label that opens the block. -/
theorem WalksBack.eq_some_iff {address label : Address} {answer : Option Address}
    (hwalks : WalksBack listing address answer) (hindex : listing.Indexes code)
    (hcode : Checked code) (haddress : address ∈ code.map Instruction.address) :
    answer = some label ↔
      Opens code (fun other => listing.isLabel other = true) label address := by
  -- a step back leads to the instruction right before, to which the block belongs as well
  have hstep : ∀ {address previous : Address} {instruction : Instruction},
      listing.isLabel address = false → listing.previous? address = some previous →
        listing.instruction? previous = some instruction →
          (Opens code (fun other => listing.isLabel other = true) label address ↔
            instruction.flow.endsBlock = false ∧
              Opens code (fun other => listing.isLabel other = true) label previous) := by
    intro address previous instruction hlabel hprevious hinstruction
    rw [hindex.previous?_eq_some_iff_next? hcode,
      hindex.next?_eq_some_iff_adjacent hcode] at hprevious
    obtain ⟨_, haddress, hlt, hbetween⟩ := hprevious
    obtain ⟨hmem, rfl⟩ := (hindex.instruction?_eq_some_iff hcode).1 hinstruction
    exact opens_iff_of_unlabelled hcode hmem haddress hlt hbetween (Bool.eq_false_iff.1 hlabel)
  induction hwalks with
  | label hlabel =>
      rw [Option.some.injEq]
      exact (opens_iff_of_labelled haddress hlabel).symm
  | first hlabel hprevious =>
      refine iff_of_false (by simp) fun hopens => ?_
      obtain ⟨previous, hsome⟩ := hindex.exists_previous?_of_lt hcode hopens.label_holds
        haddress (hopens.lt_of_unlabelled (Bool.eq_false_iff.1 hlabel))
      rw [hprevious] at hsome
      cases hsome
  | ended hlabel hprevious hinstruction hends =>
      rw [hstep hlabel hprevious hinstruction]
      simp [hends]
  | back hlabel hprevious hinstruction hends _ ih =>
      have hmem := (hindex.instruction?_eq_some_iff hcode).1 hinstruction
      simp only [hstep hlabel hprevious hinstruction, hends, true_and]
      exact ih (List.mem_map.2 ⟨_, hmem⟩)

/-- The walk from an instruction ends, and its answer is the one found by places. -/
theorem Indexes.walksBack_blockStartAt? (hindex : listing.Indexes code)
    (hcode : Checked code) {place : Nat} {instruction : Instruction}
    (hplace : code[place]? = some instruction) :
    listing.WalksBack instruction.address (listing.blockStartAt? place) := by
  induction place generalizing instruction with
  | zero =>
      have hat := (hindex.getElem?_instructions 0).trans hplace
      rw [blockStartAt?.eq_def]
      simp only [hat]
      split
      · next hlabel => exact .label hlabel
      · next hlabel =>
        refine .first (Bool.eq_false_iff.2 hlabel) ?_
        rw [previous?, (hindex.getElem?_index hcode).2 (by rw [hplace, Option.map_some])]
  | succ before ih =>
      have hlt : before < code.length :=
        Nat.lt_of_succ_lt (List.getElem?_eq_some_iff.1 hplace).1
      have hbefore : code[before]? = some code[before] := List.getElem?_eq_getElem hlt
      have hprevious : listing.previous? instruction.address = some code[before].address := by
        rw [hindex.previous?_eq_some_iff_next? hcode, hindex.next?_eq_some_iff hcode]
        exact ⟨before, by rw [hbefore, Option.map_some], by rw [hplace, Option.map_some]⟩
      have hinstruction : listing.instruction? code[before].address = some code[before] :=
        (hindex.instruction?_eq_some_iff hcode).2 ⟨List.getElem_mem hlt, rfl⟩
      rw [blockStartAt?.eq_def]
      simp only [hindex.getElem?_instructions, hplace, hbefore, Option.any_some]
      split
      · next hlabel => exact .label hlabel
      · next hlabel =>
        have hunlabelled := Bool.eq_false_iff.2 hlabel
        split
        · next hends => exact .ended hunlabelled hprevious hinstruction hends
        · next hends =>
          exact .back hunlabelled hprevious hinstruction (Bool.eq_false_iff.2 hends) (ih hbefore)

theorem Indexes.walksBack_iff (hindex : listing.Indexes code) (hcode : Checked code)
    {address : Address} (haddress : address ∈ code.map Instruction.address)
    {answer : Option Address} :
    listing.WalksBack address answer ↔ answer = listing.blockStart? address := by
  obtain ⟨place, hplace⟩ := Checked.mem_map_address_iff.1 haddress
  obtain ⟨instruction, hat, rfl⟩ := Option.map_eq_some_iff.1 hplace
  have hwalks := hindex.walksBack_blockStartAt? hcode hat
  have hstart : listing.blockStart? instruction.address = listing.blockStartAt? place := by
    rw [blockStart?, (hindex.getElem?_index hcode).2 hplace, Option.bind_some]
  rw [hstart]
  constructor
  · exact fun hother => hother.unique hwalks
  · rintro rfl
    exact hwalks

theorem Indexes.blockStart?_eq_some_iff (hindex : listing.Indexes code)
    (hcode : Checked code) {address label : Address} :
    listing.blockStart? address = some label ↔
      Opens code (fun other => listing.isLabel other = true) label address := by
  by_cases haddress : address ∈ code.map Instruction.address
  · exact ((hindex.walksBack_iff hcode haddress).2 rfl).eq_some_iff hindex hcode haddress
  · refine iff_of_false ?_ fun hopens => haddress hopens.holds
    rw [← hindex.contains_iff hcode, contains, Std.TreeMap.contains_eq_isSome_getElem?,
      Option.not_isSome_iff_eq_none] at haddress
    simp [blockStart?, haddress]

/-! ## What is taken down meanwhile -/

/-- Something to take down in a listing. -/
inductive Note where
  /-- The address has to start a block for a value of a phi set. -/
  | link (address source : Address)
  /-- The producers of the operands of an instruction. -/
  | producers (address : Address) (producers : List Address)
  /-- The phi set of a consumer. -/
  | phi (consumer : Address) (phi : Phi)

/-- Takes something down.  What is refused leaves the listing as it is. -/
def note (listing : Listing) : Note → Listing
  | .link address source => listing.link address source
  | .producers address producers =>
    ((listing.setProducers address producers).toOption).getD listing
  | .phi consumer phi => ((listing.attach consumer phi).toOption).getD listing

def noteAll (listing : Listing) (notes : List Note) : Listing :=
  notes.foldl note listing

/-- Apart from links, taking something down changes neither instructions nor labels. -/
theorem note_cases (listing : Listing) (entry : Note) :
    (∃ address source, entry = .link address source ∧
        listing.note entry = listing.link address source) ∨
      (∀ address source, entry ≠ .link address source) ∧
        ∃ producers phis,
          listing.note entry = { listing with producers := producers, phis := phis } := by
  cases entry with
  | link address source => exact Or.inl ⟨address, source, rfl, rfl⟩
  | producers address producers =>
      refine Or.inr ⟨by simp, ?_⟩
      rw [note]
      cases hnoted : listing.setProducers address producers with
      | error _ => exact ⟨listing.producers, listing.phis, rfl⟩
      | ok noted => exact ⟨_, listing.phis, (setProducers_eq_ok_iff.1 hnoted).2⟩
  | phi consumer phi =>
      refine Or.inr ⟨by simp, ?_⟩
      rw [note]
      cases hnoted : listing.attach consumer phi with
      | error _ => exact ⟨listing.producers, listing.phis, rfl⟩
      | ok noted => exact ⟨listing.producers, _, (attach_eq_ok_iff.1 hnoted).2.2⟩

theorem Indexes.note (hindex : listing.Indexes code) (entry : Note) :
    (listing.note entry).Indexes code := by
  obtain ⟨address, source, _, heq⟩ | ⟨_, producers, phis, heq⟩ := listing.note_cases entry
  · obtain ⟨links, hlinks⟩ := listing.link_eq address source
    rw [heq, hlinks]
    exact hindex.withNotes _ _ _
  · rw [heq]
    exact hindex.withNotes _ _ _

theorem linksTo_note_ne_nil_iff {entry : Note} {address : Address} :
    (listing.note entry).linksTo address ≠ [] ↔
      listing.linksTo address ≠ [] ∨ ∃ source, entry = .link address source := by
  obtain ⟨other, source, rfl, heq⟩ | ⟨hother, producers, phis, heq⟩ := listing.note_cases entry
  · rw [heq, linksTo_link_ne_nil_iff, or_comm]
    refine or_congr_right ⟨?_, ?_⟩
    · rintro rfl
      exact ⟨source, rfl⟩
    · rintro ⟨_, hsame⟩
      cases hsame
      rfl
  · rw [heq]
    simp [linksTo, hother]

theorem Indexes.noteAll (hindex : listing.Indexes code) (notes : List Note) :
    (listing.noteAll notes).Indexes code := by
  induction notes generalizing listing with
  | nil => exact hindex
  | cons entry rest ih => exact ih (hindex.note entry)

/-- An address has links exactly if it had some or one was taken down for it. -/
theorem linksTo_noteAll_ne_nil_iff {notes : List Note} {address : Address} :
    (listing.noteAll notes).linksTo address ≠ [] ↔
      listing.linksTo address ≠ [] ∨ ∃ source, Note.link address source ∈ notes := by
  induction notes generalizing listing with
  | nil => simp [noteAll]
  | cons entry rest ih =>
      rw [noteAll, List.foldl_cons, ← noteAll, ih, linksTo_note_ne_nil_iff]
      simp only [List.mem_cons, exists_or, or_assoc, eq_comm]

end Listing

/-- A jump of the method leads to the address, or a link was taken down for it. -/
def Method.Labelled (method : Method) (notes : List Listing.Note) (address : Address) : Prop :=
  (∃ jump ∈ method.instructions, jump.jumpTarget? = some address) ∨
    ∃ source, Listing.Note.link address source ∈ notes

namespace Listing

variable {listing : Listing} {method : Method}

theorem isLabel_noteAll_iff (hlisting : ofMethod method = .ok listing) {notes : List Note}
    {address : Address} :
    (listing.noteAll notes).isLabel address = true ↔ method.Labelled notes address := by
  have hindex := indexes_of_ofMethod hlisting
  have hlinks : listing.linksTo address = [] := by
    rw [(ofMethod_eq_ok_iff.1 hlisting).2]
    simp [linksTo]
  rw [isLabel_eq_true_iff, (hindex.noteAll notes).jumpsTo_ne_nil_iff,
    linksTo_noteAll_ne_nil_iff, hlinks, Method.Labelled]
  simp

/-- In the listing of a method that keeps the contract, whatever is taken down in it, the
block start of an address is the label that opens its block, and there is none where
no label does.  The walk that looks for it from an instruction ends with this answer. -/
theorem blockStart?_opens_of_validate (hmethod : method.validate = .ok ()) :
    ∃ listing, ofMethod method = .ok listing ∧ ∀ notes address,
      (∀ label, (listing.noteAll notes).blockStart? address = some label ↔
        Opens method.instructions.toList (method.Labelled notes) label address) ∧
      (method.Holds address → ∀ answer,
        (listing.noteAll notes).WalksBack address answer ↔
          answer = (listing.noteAll notes).blockStart? address) := by
  have hcode := Method.validate_eq_ok_iff.1 hmethod
  obtain ⟨listing, hlisting⟩ : ∃ listing, ofMethod method = .ok listing :=
    ⟨_, ofMethod_eq_ok_iff.2 ⟨hcode, rfl⟩⟩
  refine ⟨listing, hlisting, fun notes address => ?_⟩
  have hindex := (indexes_of_ofMethod hlisting).noteAll notes
  have hlabelled : (fun other => (listing.noteAll notes).isLabel other = true) =
      method.Labelled notes := by
    funext other
    exact propext (isLabel_noteAll_iff hlisting)
  constructor
  · intro label
    rw [hindex.blockStart?_eq_some_iff hcode, hlabelled]
  · intro hholds answer
    refine hindex.walksBack_iff hcode ?_
    simpa [Method.Holds] using hholds

theorem blockStart?_opens_of_validate_guarded :
    Method.guarded.validate = .ok () ∧
      ∃ listing, ofMethod Method.guarded = .ok listing ∧ ∀ notes address,
        (∀ label, (listing.noteAll notes).blockStart? address = some label ↔
          Opens Method.guarded.instructions.toList (Method.guarded.Labelled notes) label
            address) ∧
        (Method.guarded.Holds address → ∀ answer,
          (listing.noteAll notes).WalksBack address answer ↔
            answer = (listing.noteAll notes).blockStart? address) :=
  ⟨rfl, blockStart?_opens_of_validate rfl⟩

end Listing

end StackLift
