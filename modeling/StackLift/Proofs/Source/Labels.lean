import StackLift.Proofs.Engine.Values
import StackLift.Proofs.Source.Layout

/-!
# Labels of alternatives

Going back from the operation that computes an alternative, the first label that is
met is the end of the last choice among its operands.  If there is no such choice,
the search comes to the start of the arm.  A label stands there, or one is set
there because the first operands lead to this place.
-/

namespace StackLift

namespace Listing

/-- Labels were set for phi sets only behind instructions that end a block. -/
def LinksAfterEnds (listing : Listing) (code : List Instruction) : Prop :=
  ∀ address, listing.linksTo address ≠ [] → ∃ previous ∈ code,
    previous.flow.endsBlock = true ∧ previous.address.toNat + 1 = address.toNat

/-- The given producers have been taken down. -/
def Noted (listing : Listing) (notes : List (Address × List Address)) : Prop :=
  ∀ entry ∈ notes, listing.producersOf entry.1 = entry.2

/-- An alternative gets its label, whatever labels have been set before. -/
def Names (listing : Listing) (code : List Instruction) (entry : Address × Expr) : Prop :=
  ∀ links, ({ listing with links := links } : Listing).LinksAfterEnds code →
    ∀ phi : Phi, ∃ more,
      ({ listing with links := links } : Listing).addAlternative phi entry.2.address =
        ({ listing with links := more }, phi.add entry.2.address entry.1) ∧
      ({ listing with links := more } : Listing).LinksAfterEnds code

theorem LinksAfterEnds.link {listing : Listing} {code : List Instruction}
    (hlinks : listing.LinksAfterEnds code) {address source : Address}
    (haddress : ∃ previous ∈ code, previous.flow.endsBlock = true ∧
      previous.address.toNat + 1 = address.toNat) :
    (listing.link address source).LinksAfterEnds code := by
  intro other hother
  rw [linksTo_link] at hother
  split at hother
  · next heq =>
    rw [← heq.1]
    exact haddress
  · exact hlinks other hother

end Listing

/-! ## Going back through a block -/

section Block

variable {code : List Instruction} {first : Nat} {listing : Listing}

theorem Laid.blockStart?_eq (hlaid : Laid code first) (hindex : listing.Indexes code)
    {offset : Nat} (hlow : first ≤ offset) (hhigh : offset < first + code.length) :
    listing.blockStart? (.ofNat offset) = listing.blockStartAt? (offset - first) := by
  rw [Listing.blockStart?, hlaid.getElem?_index hindex hlow hhigh, Option.bind_some]

theorem Laid.exists_instruction (hlaid : Laid code first) (hindex : listing.Indexes code)
    {offset : Nat} (hlow : first ≤ offset) (hhigh : offset < first + code.length) :
    ∃ instruction ∈ code, listing.instructions[offset - first]? = some instruction ∧
      instruction.address = .ofNat offset := by
  have hplace : offset - first < code.length := by omega
  have haddress := hlaid.getElem?_address hplace
  obtain ⟨instruction, hinstruction, heq⟩ := Option.map_eq_some_iff.1 haddress
  refine ⟨instruction, List.mem_of_getElem? hinstruction, ?_, ?_⟩
  · rw [hindex.getElem?_instructions, hinstruction]
  · rw [heq]
    congr 1
    omega

theorem Laid.blockStart?_label (hlaid : Laid code first) (hindex : listing.Indexes code)
    {offset : Nat} (hlow : first ≤ offset) (hhigh : offset < first + code.length)
    (hlabel : listing.isLabel (.ofNat offset) = true) :
    listing.blockStart? (.ofNat offset) = some (.ofNat offset) := by
  obtain ⟨instruction, _, hplace, haddress⟩ := hlaid.exists_instruction hindex hlow hhigh
  rw [hlaid.blockStart?_eq hindex hlow hhigh, Listing.blockStartAt?.eq_def, hplace]
  simp only [haddress, hlabel, if_true]

/-- Without a label the search goes on unless the instruction before ends a block. -/
theorem Laid.blockStart?_succ (hlaid : Laid code first) (hindex : listing.Indexes code)
    {offset : Nat} (hlow : first ≤ offset) (hhigh : offset + 1 < first + code.length)
    (hlabel : listing.isLabel (.ofNat (offset + 1)) = false) {previous : Instruction}
    (hprevious : previous ∈ code) (haddress : previous.address = .ofNat offset) :
    listing.blockStart? (.ofNat (offset + 1)) =
      if previous.flow.endsBlock then none else listing.blockStart? (.ofNat offset) := by
  obtain ⟨instruction, _, hplace, hinstruction⟩ :=
    hlaid.exists_instruction hindex (Nat.le_succ_of_le hlow) hhigh
  obtain ⟨before, hbefore, hbeforePlace, hbeforeAddress⟩ :=
    hlaid.exists_instruction hindex hlow (Nat.lt_of_succ_lt hhigh)
  have heq : before = previous :=
    hlaid.checked.eq_of_address_eq hbefore hprevious (hbeforeAddress.trans haddress.symm)
  rw [heq] at hbeforePlace
  have hsucc : offset + 1 - first = offset - first + 1 := by omega
  rw [hlaid.blockStart?_eq hindex (Nat.le_succ_of_le hlow) hhigh,
    hlaid.blockStart?_eq hindex hlow (Nat.lt_of_succ_lt hhigh)]
  rw [hsucc] at hplace ⊢
  rw [Listing.blockStartAt?, hplace]
  simp only [hinstruction, hlabel, hbeforePlace, Option.any_some]
  rfl

theorem Laid.isLabel_eq_false (hlaid : Laid code first)
    (hlinks : listing.LinksAfterEnds code) {offset : Nat}
    (hoffset : offset + 1 ≤ Address.last.toNat)
    (hjumps : listing.jumpsTo (.ofNat (offset + 1)) = []) {previous : Instruction}
    (hprevious : previous ∈ code) (haddress : previous.address = .ofNat offset)
    (hflow : previous.flow.endsBlock = false) :
    listing.isLabel (.ofNat (offset + 1)) = false := by
  have hnone : listing.linksTo (.ofNat (offset + 1)) = [] := by
    by_contra hne
    obtain ⟨other, hother, hends, hnext⟩ := hlinks _ hne
    have heq : other = previous := by
      apply hlaid.checked.eq_of_address_eq hother hprevious
      rw [haddress, ← Address.toNat_inj, Address.toNat_ofNat (by omega)]
      rw [Address.toNat_ofNat hoffset] at hnext
      omega
    rw [heq, hflow] at hends
    cases hends
  rw [Listing.isLabel, hjumps, hnone]
  rfl

end Block

namespace Source

variable {code before after : List Instruction} {first start : Nat} {listing : Listing}

/-- The block behind an expression starts where the last choice in it ends, or else
where the block before the expression starts. -/
def BlockBehind (code : List Instruction) (first : Nat) (listing : Listing)
    (source : Source) : Prop :=
  source.fits = true → ∀ before after start,
    Site code first before (source.code start) after start → after ≠ [] →
    (∀ jump ∈ before ++ after,
      jump.jumpTarget? ≠ some (.ofNat (start + source.size))) →
    listing.blockStart? (.ofNat (start + source.size)) =
      match source.lastJoin start with
      | some join => some (.ofNat join)
      | none => listing.blockStart? (.ofNat start)

/-- No jump leads behind the first of some operands, unless one from elsewhere leads behind
all of them. -/
theorem fresh_head {arg : Source} {rest : List Source} (hlaid : Laid code first)
    (hrest : ∀ other ∈ rest, other.fits = true)
    (hsite : Site code first before (codeAll (arg :: rest) start) after start)
    (hfresh : ∀ jump ∈ before ++ after,
      jump.jumpTarget? ≠ some (.ofNat (start + sizeAll (arg :: rest)))) :
    ∀ jump ∈ before ++ (codeAll rest (start + arg.size) ++ after),
      jump.jumpTarget? ≠ some (.ofNat (start + arg.size)) := by
  intro jump hjump htarget
  have hbound := hlaid.bound
  have hstop := hsite.stop_le
  have hclear := hsite.clear jump
  rw [length_codeAll fun other _ => other.length_code, sizeAll] at hstop hclear
  by_cases hmem : jump ∈ codeAll rest (start + arg.size)
  · -- a jump among the other operands leads further on
    have hrange := (jumpsWithin_codeAll (fun other hother =>
      jumpsWithin_code (hrest other hother)) _).toNat (by omega) hmem htarget
    rw [Address.toNat_ofNat (by omega)] at hrange
    omega
  · have houter : jump ∈ before ++ after := by
      simp only [List.mem_append] at hjump ⊢
      tauto
    by_cases hnil : rest = []
    · apply hfresh jump houter
      rw [htarget, hnil, sizeAll, sizeAll, Nat.add_zero]
    · have hbetween := hclear houter _ htarget
      rw [Address.toNat_ofNat (by omega)] at hbetween
      have hrestPos := sizeAll_pos hnil
      have hargPos := arg.size_pos
      omega

/-- No jump from the first operand leads behind the last one. -/
theorem fresh_tail {arg : Source} {rest : List Source} (hlaid : Laid code first)
    (harg : arg.fits = true) (hne : rest ≠ [])
    (hsite : Site code first before (codeAll (arg :: rest) start) after start)
    (hfresh : ∀ jump ∈ before ++ after,
      jump.jumpTarget? ≠ some (.ofNat (start + sizeAll (arg :: rest)))) :
    ∀ jump ∈ before ++ arg.code start ++ after,
      jump.jumpTarget? ≠ some (.ofNat (start + arg.size + sizeAll rest)) := by
  intro jump hjump htarget
  have hbound := hlaid.bound
  have hstop := hsite.stop_le
  rw [length_codeAll fun other _ => other.length_code, sizeAll] at hstop
  by_cases hmem : jump ∈ arg.code start
  · have hrange := (jumpsWithin_code harg start).toNat (by omega) hmem htarget
    rw [Address.toNat_ofNat (by omega)] at hrange
    have hrestPos := sizeAll_pos hne
    omega
  · have houter : jump ∈ before ++ after := by
      simp only [List.mem_append] at hjump ⊢
      tauto
    apply hfresh jump houter
    rw [htarget, sizeAll, Nat.add_assoc]

theorem blockStart?_args {args : List Source} (hlaid : Laid code first)
    (hargs : ∀ arg ∈ args, BlockBehind code first listing arg)
    (hfits : ∀ arg ∈ args, arg.fits = true)
    (hsite : Site code first before (codeAll args start) after start) (hafter : after ≠ [])
    (hfresh : args ≠ [] → ∀ jump ∈ before ++ after,
      jump.jumpTarget? ≠ some (.ofNat (start + sizeAll args))) :
    listing.blockStart? (.ofNat (start + sizeAll args)) =
      match lastJoinAll args start with
      | some join => some (.ofNat join)
      | none => listing.blockStart? (.ofNat start) := by
  induction args generalizing before start with
  | nil => rw [sizeAll, lastJoinAll, Nat.add_zero]
  | cons arg rest ih =>
      have harg := hfits arg List.mem_cons_self
      have hrest : ∀ other ∈ rest, other.fits = true :=
        fun other hother => hfits other (List.mem_cons_of_mem _ hother)
      have houter := hfresh (List.cons_ne_nil _ _)
      have hmiddle := hargs arg List.mem_cons_self harg before _ start
        (site_head hlaid hrest hsite) (by simp [hafter]) (fresh_head hlaid hrest hsite houter)
      have hend := ih (fun other hother => hargs other (List.mem_cons_of_mem _ hother)) hrest
        (site_tail hlaid harg hsite) fun hne => fresh_tail hlaid harg hne hsite houter
      rw [sizeAll, ← Nat.add_assoc, hend, lastJoinAll]
      cases lastJoinAll rest (start + arg.size) with
      | some join => rfl
      | none => exact hmiddle

/-- The search from an operation comes to the end of the last choice among its
operands, or else to the first of its instructions. -/
theorem blockStart?_apply_of_args {opcode : Opcode} {operand : Operand} {args : List Source}
    (hlaid : Laid code first) (hargs : ∀ arg ∈ args, BlockBehind code first listing arg)
    (hfits : (apply opcode operand args).fits = true)
    (hsite : Site code first before ((apply opcode operand args).code start) after start) :
    listing.blockStart? (.ofNat (start + sizeAll args)) =
      match lastJoinAll args start with
      | some join => some (.ofNat join)
      | none => listing.blockStart? (.ofNat start) := by
  have happly := fits_apply hfits
  have hnone := happly.jumpTarget? (.ofNat (start + sizeAll args))
  have hstop := hsite.stop_le
  have hbound := hlaid.bound
  have hclear := hsite.clear
  rw [length_code, size] at hstop hclear
  rw [Source.code] at hsite
  refine blockStart?_args hlaid hargs happly.args (site_args (fun target htarget => ?_) hsite)
    (List.cons_ne_nil _ _) fun hne jump hjump htarget => ?_
  · rw [hnone] at htarget
    cases htarget
  · have hpos := sizeAll_pos hne
    rcases List.mem_append.1 hjump with hjump | hjump
    · have hrange := hclear jump (List.mem_append_left _ hjump) _ htarget
      rw [Address.toNat_ofNat (by omega)] at hrange
      omega
    · rcases List.mem_cons.1 hjump with rfl | hjump
      · rw [hnone] at htarget
        cases htarget
      · have hrange := hclear jump (List.mem_append_right _ hjump) _ htarget
        rw [Address.toNat_ofNat (by omega)] at hrange
        omega

theorem mem_code_apply (opcode : Opcode) (operand : Operand) (args : List Source)
    (start : Nat) : ⟨.ofNat (start + sizeAll args), opcode, operand⟩ ∈
      (apply opcode operand args).code start := by
  rw [Source.code]
  exact List.mem_append_right _ (List.mem_singleton_self _)

/-- No jump leads right behind an operation, unless one from elsewhere does. -/
theorem jumpsTo_behind {opcode : Opcode} {operand : Operand} {args : List Source}
    (hlaid : Laid code first) (hindex : listing.Indexes code)
    (hfits : (apply opcode operand args).fits = true)
    (hsite : Site code first before ((apply opcode operand args).code start) after start)
    (hfresh : ∀ jump ∈ before ++ after,
      jump.jumpTarget? ≠ some (.ofNat (start + (apply opcode operand args).size))) :
    listing.jumpsTo (.ofNat (start + (apply opcode operand args).size)) = [] := by
  have happly := fits_apply hfits
  have hstop := hsite.stop_le
  have hbound := hlaid.bound
  rw [length_code] at hstop
  rw [hindex.jumpsTo_eq, List.map_eq_nil_iff, List.filter_eq_nil_iff]
  intro jump hjump htarget
  rw [decide_eq_true_eq] at htarget
  by_cases hmem : jump ∈ (apply opcode operand args).code start
  · have hrange := (jumpsWithin_apply happly (fun arg harg =>
      jumpsWithin_code (happly.args arg harg)) start).toNat (by rw [size] at hstop; omega)
      hmem htarget
    rw [Address.toNat_ofNat (by omega), size] at hrange
    omega
  · apply hfresh jump _ htarget
    rw [hsite.split] at hjump
    simp only [List.mem_append] at hjump ⊢
    tauto

theorem blockBehind (hlaid : Laid code first) (hindex : listing.Indexes code)
    (hlinks : listing.LinksAfterEnds code) (source : Source) :
    BlockBehind code first listing source := by
  induction source using Source.induction with
  | apply opcode operand args hargs =>
      intro hfits before after start hsite hafter hfresh
      have happly := fits_apply hfits
      have hlow := hsite.start_le
      have hstop := hsite.stop_le
      have hbound := hlaid.bound
      have hpos : 0 < after.length := List.length_pos_iff.2 hafter
      have hjumps := jumpsTo_behind hlaid hindex hfits hsite hfresh
      rw [length_code, size] at hstop
      rw [size, ← Nat.add_assoc] at hjumps
      have hflow := happly.endsBlock (.ofNat (start + sizeAll args))
      have hlast := hsite.mem_of_mem (mem_code_apply opcode operand args start)
      have hlabel := hlaid.isLabel_eq_false hlinks (by omega) hjumps hlast rfl hflow
      rw [size, ← Nat.add_assoc,
        hlaid.blockStart?_succ hindex (by omega) (by omega) hlabel hlast rfl,
        if_neg (by simp [hflow]), lastJoin]
      exact blockStart?_apply_of_args hlaid hargs hfits hsite
  | cond test yes no _ _ _ =>
      intro hfits before after start hsite hafter _
      have hlow := hsite.start_le
      have hstop := hsite.stop_le
      have hpos : 0 < after.length := List.length_pos_iff.2 hafter
      have hend : start + (cond test yes no).size =
          start + test.size + yes.size + no.size + 2 := by
        rw [size]
        omega
      have hlabel : listing.isLabel (.ofNat (start + (cond test yes no).size)) = true := by
        rw [Listing.isLabel, hindex.jumpsTo_eq, Bool.or_eq_true]
        left
        rw [Bool.not_eq_true', List.isEmpty_eq_false_iff]
        apply List.ne_nil_of_mem
        apply List.mem_map_of_mem
        rw [List.mem_filter]
        refine ⟨leaveJump_mem hsite, ?_⟩
        rw [hend, jumpTarget?_leaveJump]
        exact decide_eq_true rfl
      rw [length_code] at hstop
      rw [hlaid.blockStart?_label hindex (by omega) (by omega) hlabel, lastJoin]

/-- Where an operation has no choice among its operands, the first operands lead to
its first instruction. -/
theorem groupStart_eq {source : Source}
    (hbound : start + source.size ≤ Address.last.toNat)
    (hjoin : source.lastJoin start = none) (hnoted : listing.Noted (source.notes start)) :
    listing.groupStart (source.value start) = .ofNat start := by
  induction source using Source.induction with
  | apply opcode operand args hargs =>
      rw [size] at hbound
      rw [lastJoin] at hjoin
      rw [notes] at hnoted
      have hproducers := hnoted (.ofNat (start + sizeAll args), values args start)
        (List.mem_append_right _ (List.mem_singleton_self _))
      rw [value, active, Expr.address, Listing.groupStart, hproducers]
      cases args with
      | nil => rfl
      | cons arg rest =>
          rw [lastJoinAll, Option.or_eq_none_iff] at hjoin
          rw [sizeAll] at hbound ⊢
          have hmem : arg.active start ∈ arg.alternatives start :=
            List.mem_append_right _ (List.mem_singleton_self _)
          obtain ⟨offset, heq, _, hoffset⟩ := address_of_mem_alternatives hmem
          have hlt : arg.value start < .ofNat (start + (arg.size + sizeAll rest)) := by
            rw [value, heq]
            exact Laid.ofNat_lt_ofNat (by omega) (by omega)
          rw [values, List.head?_cons]
          simp only [hlt, if_true]
          apply hargs arg List.mem_cons_self (by omega) hjoin.2
          intro entry hentry
          apply hnoted
          rw [notesAll]
          exact List.mem_append_left _ (List.mem_append_left _ hentry)
  | cond test yes no _ _ _ =>
      rw [lastJoin] at hjoin
      cases hjoin

/-- An arm starts behind an instruction that ends a block. -/
def ArmStart (code : List Instruction) (first start : Nat) : Prop :=
  ∃ offset, start = offset + 1 ∧ first ≤ offset ∧
    ∃ previous ∈ code, previous.flow.endsBlock = true ∧ previous.address = .ofNat offset

/-- The alternative of an arm without choice is labelled by the end of the last choice
among the operands, or by the start of the arm. -/
theorem names_active {opcode : Opcode} {operand : Operand} {args : List Source}
    (hlaid : Laid code first) (hindex : listing.Indexes code)
    (hfits : (apply opcode operand args).fits = true)
    (hsite : Site code first before ((apply opcode operand args).code start) after start)
    (harm : ArmStart code first start)
    (hnoted : listing.Noted ((apply opcode operand args).notes start)) :
    listing.Names code ((apply opcode operand args).active start) := by
  intro links hlinks phi
  have hlabelled : ({ listing with links := links } : Listing).Indexes code :=
    hindex.withNotes _ links _
  have hlow := hsite.start_le
  have hstop := hsite.stop_le
  have hbound := hlaid.bound
  rw [length_code, size] at hstop
  have hblock := blockStart?_apply_of_args hlaid
    (fun arg _ => blockBehind hlaid hlabelled hlinks arg) hfits hsite
  have hactive : (apply opcode operand args).active start =
      (.ofNat ((lastJoinAll args start).getD start),
        .op (.ofNat (start + sizeAll args)) opcode operand (trees args start)) := by
    rw [active]
  have hgroup : lastJoinAll args start = none →
      ({ listing with links := links } : Listing).groupStart (.ofNat (start + sizeAll args)) =
        .ofNat start := by
    intro hjoin
    have hgroup : ({ listing with links := links } : Listing).groupStart
        ((apply opcode operand args).value start) = .ofNat start :=
      groupStart_eq (by rw [size]; omega) (by rw [lastJoin]; exact hjoin) hnoted
    rw [value, hactive] at hgroup
    exact hgroup
  rw [hactive]
  simp only [Expr.address]
  rw [Listing.addAlternative]
  cases hjoin : lastJoinAll args start with
  | some join =>
      rw [hjoin] at hblock
      simp only [hblock]
      exact ⟨links, rfl, hlinks⟩
  | none =>
      rw [hjoin] at hblock
      simp only at hblock
      obtain ⟨offset, rfl, hoffset, previous, hprevious, hends, haddress⟩ := harm
      -- an arm that no jump leads to gets its label here, when the first value needs it
      cases hlabel : ({ listing with links := links } : Listing).isLabel
          (.ofNat (offset + 1)) with
      | true =>
          rw [hlaid.blockStart?_label hlabelled hlow (by omega) hlabel] at hblock
          simp only [hblock]
          exact ⟨links, rfl, hlinks⟩
      | false =>
          rw [hlaid.blockStart?_succ hlabelled hoffset (by omega) hlabel hprevious haddress,
            if_pos hends] at hblock
          simp only [hblock, hgroup hjoin]
          obtain ⟨more, hmore⟩ := ({ listing with links := links } : Listing).link_eq
            (.ofNat (offset + 1)) (.ofNat (offset + 1 + sizeAll args))
          refine ⟨more, by rw [hmore]; rfl, ?_⟩
          rw [← hmore]
          refine hlinks.link ⟨previous, hprevious, hends, ?_⟩
          rw [haddress, Address.toNat_ofNat (by omega), Address.toNat_ofNat (by omega)]

/-- The arms of a choice start behind its jumps. -/
theorem armStart_cond {test yes no : Source}
    (hsite : Site code first before ((cond test yes no).code start) after start) :
    ArmStart code first (start + test.size + 1) ∧
      ArmStart code first (start + test.size + yes.size + 2) := by
  have hlow := hsite.start_le
  exact ⟨⟨start + test.size, rfl, by omega, _, skipJump_mem hsite, rfl, rfl⟩,
    start + test.size + yes.size + 1, rfl, by omega, _, leaveJump_mem hsite, rfl, rfl⟩

/-- All alternatives of a choice or of an arm get their labels. -/
theorem names_of_mem_alternatives {source : Source} (hlaid : Laid code first)
    (hindex : listing.Indexes code) (hfits : source.fits = true)
    (hsite : Site code first before (source.code start) after start)
    (harm : source.isCond = false → ArmStart code first start)
    (hnoted : listing.Noted (source.notes start))
    {entry : Address × Expr} (hentry : entry ∈ source.alternatives start) :
    listing.Names code entry := by
  induction source using Source.induction generalizing before after start with
  | apply opcode operand args _ =>
      rw [alternatives_apply, List.mem_singleton] at hentry
      rw [hentry]
      exact names_active hlaid hindex hfits hsite (harm rfl) hnoted
  | cond test yes no _ hyes hno =>
      obtain ⟨hyesStart, hnoStart⟩ := armStart_cond hsite
      obtain ⟨_, hfitsYes, hfitsNo⟩ := fits_cond hfits
      rw [notes] at hnoted
      rcases mem_alternatives_cond.1 hentry with hentry | hentry
      · exact hno hfitsNo (site_no hlaid hfits hsite) (fun _ => hnoStart)
          (fun note hnote => hnoted note (List.mem_append_right _ hnote)) hentry
      · exact hyes hfitsYes (site_yes hlaid hfits hsite) (fun _ => hyesStart)
          (fun note hnote => hnoted note
            (List.mem_append_left _ (List.mem_append_right _ hnote))) hentry

/-! ## Phi sets of choices -/

theorem foldl_addAlternative_names {entries : List (Address × Expr)}
    (hnames : ∀ entry ∈ entries, listing.Names code entry)
    (links : Std.TreeMap Address (List Address))
    (hlinks : ({ listing with links := links } : Listing).LinksAfterEnds code) (phi : Phi) :
    ∃ more,
      (entries.map fun entry => entry.2.address).foldl
          (fun state value => state.1.addAlternative state.2 value)
          ({ listing with links := links }, phi) =
        ({ listing with links := more },
          ⟨phi.alternatives ++ entries.map fun entry => ⟨entry.2.address, entry.1⟩⟩) ∧
      ({ listing with links := more } : Listing).LinksAfterEnds code := by
  induction entries generalizing links phi with
  | nil => exact ⟨links, by rw [List.map_nil, List.map_nil, List.append_nil]; rfl, hlinks⟩
  | cons entry rest ih =>
      obtain ⟨between, hfirst, hbetween⟩ := hnames entry List.mem_cons_self links hlinks phi
      obtain ⟨more, hrest, hmore⟩ := ih
        (fun other hother => hnames other (List.mem_cons_of_mem _ hother)) between hbetween
        (phi.add entry.2.address entry.1)
      refine ⟨more, ?_, hmore⟩
      rw [List.map_cons, List.foldl_cons, hfirst, hrest, Phi.add]
      simp only [List.append_assoc, List.singleton_append, List.map_cons]

/-- The alternatives of a choice are attached to the instruction behind it. -/
theorem mergeValues_cond {source : Source} (cursor : Address) (hlaid : Laid code first)
    (hindex : listing.Indexes code) (hfits : source.fits = true)
    (hsite : Site code first before (source.code start) after start) (hafter : after ≠ [])
    (hcond : source.isCond = true) (hnoted : listing.Noted (source.notes start))
    (hlinks : listing.LinksAfterEnds code)
    (hfree : listing.phiAt? (.ofNat (start + source.size)) = none) :
    ∃ links,
      Engine.mergeValues cursor listing (source.closedValues start ++ [source.value start]) =
        ({ listing with
          links := links
          phis := listing.phis.insert (.ofNat (start + source.size)) (source.phi start) },
          .ok (some (.ofNat (start + source.size)))) ∧
      ({ listing with links := links } : Listing).LinksAfterEnds code := by
  have hstop := hsite.stop_le
  have hlow := hsite.start_le
  have hbound := hlaid.bound
  have hpos := source.size_pos
  have hlength : 0 < after.length := List.length_pos_iff.2 hafter
  rw [length_code] at hstop
  have hvalues : source.closedValues start ++ [source.value start] =
      (source.alternatives start).map fun entry => entry.2.address := by
    rw [closedValues, value, alternatives, List.map_append, List.map_singleton]
  obtain ⟨links, hgather, hmore⟩ := foldl_addAlternative_names
    (fun entry hentry => names_of_mem_alternatives hlaid hindex hfits hsite
      (fun hnot => absurd (hcond.symm.trans hnot) Bool.noConfusion) hnoted hentry)
    listing.links hlinks Phi.empty
  refine ⟨links, ?_, hmore⟩
  have hanchor : (source.phi start).anchor? = some (.ofNat (start + source.size - 1)) := by
    have hphi : (source.phi start).values =
        (source.alternatives start).map fun entry => entry.2.address := by
      rw [phi, Phi.values, List.map_map]
      rfl
    rw [Phi.anchor?_eq_some_iff, hphi]
    refine ⟨?_, ?_⟩
    · obtain ⟨entry, hentry, heq⟩ := source.exists_last_alternative start
      exact List.mem_map.2 ⟨entry, hentry, heq⟩
    · intro value hvalue
      obtain ⟨entry, hentry, rfl⟩ := List.mem_map.1 hvalue
      obtain ⟨offset, heq, _, hoffset⟩ := address_of_mem_alternatives hentry
      rw [heq, Address.le_iff_toNat_le, Address.toNat_ofNat (by omega),
        Address.toNat_ofNat (by omega)]
      omega
  have hnext := hlaid.next? hindex (show first ≤ start + source.size - 1 by omega)
    (show start + source.size - 1 + 1 < first + code.length by omega)
  rw [show start + source.size - 1 + 1 = start + source.size by omega] at hnext
  have hcontains : listing.contains (.ofNat (start + source.size)) = true := by
    obtain ⟨instruction, hinstruction, _, haddress⟩ :=
      hlaid.exists_instruction hindex (show first ≤ start + source.size by omega) (by omega)
    rw [hindex.contains_iff hlaid.checked, ← haddress]
    exact List.mem_map_of_mem hinstruction
  exact Engine.mergeValues_of_gather cursor (by rw [hvalues]; exact hgather) hanchor hnext
    hcontains hfree

end Source

end StackLift
