import StackLift.Proofs.Lift.Pops
import StackLift.Proofs.Lift.Tree

/-!
# Taking expressions of values

Expressions wait for the instruction that uses their value.  If the waiting values
include the values that some slots stand for, then the expressions of all of these
can be taken, each once, and all others go on waiting.  The only thing that can go
wrong is a slot that holds no value.
-/

namespace StackLift

/-- The expression of an operand: the one of the popped value, or the merge of the
values of the phi set. -/
inductive Popped.Gives (listing : Listing) :
    Popped → List (Address × Expr) → Expr → Prop where
  | plain (value : Address) (expr : Expr) :
    Gives listing ⟨.value value, none⟩ [(value, expr)] expr
  | merge (value consumer : Address) (phi : Phi) (entries incoming : List (Address × Expr))
    (hphi : listing.phiAt? consumer = some phi)
    (hvalues : entries.map Prod.fst = phi.values)
    (hlabels : incoming.map Prod.fst = phi.labels)
    (hexprs : incoming.map Prod.snd = entries.map Prod.snd) :
    Gives listing ⟨.value value, some consumer⟩ entries (.phi consumer incoming)

/-- The expressions of all operands of an instruction. -/
inductive Popped.GiveAll (listing : Listing) :
    List Popped → List (Address × Expr) → List Expr → Prop where
  | nil : GiveAll listing [] [] []
  | cons {slot : Popped} {slots : List Popped} {entries others : List (Address × Expr)}
    {expr : Expr} {args : List Expr} (hfirst : slot.Gives listing entries expr)
    (hrest : GiveAll listing slots others args) :
    GiveAll listing (slot :: slots) (entries ++ others) (expr :: args)

namespace Pending

theorem take?_of_mem {value : Address} {pending : Pending}
    (hvalue : value ∈ pending.map Prod.fst) :
    ∃ expr left, take? value pending = some (expr, left) ∧
      pending.Perm ((value, expr) :: left) := by
  induction pending with
  | nil => cases hvalue
  | cons entry rest ih =>
      by_cases hkey : entry.1 = value
      · refine ⟨entry.2, rest, by rw [take?, if_pos hkey], ?_⟩
        rw [← hkey]
      · rw [List.map_cons, List.mem_cons] at hvalue
        obtain ⟨expr, left, htake, hperm⟩ := ih (hvalue.resolve_left fun h => hkey h.symm)
        refine ⟨expr, entry :: left, by rw [take?, if_neg hkey, htake], ?_⟩
        exact (hperm.cons entry).trans (List.Perm.swap _ _ _)

theorem take_of_mem (consumer : Address) {value : Address} {pending : Pending}
    (hvalue : value ∈ pending.map Prod.fst) :
    ∃ expr left, take consumer value pending = .ok (expr, left) ∧
      pending.Perm ((value, expr) :: left) := by
  obtain ⟨expr, left, htake, hperm⟩ := take?_of_mem hvalue
  exact ⟨expr, left, by rw [take, htake], hperm⟩

/-- Taking expressions out leaves the keys of the others. -/
theorem keys_perm_of_perm {pending left : Pending} (entries : Pending)
    {others : List Address}
    (hperm : pending.Perm (entries ++ left))
    (hkeys : (pending.map Prod.fst).Perm (entries.map Prod.fst ++ others)) :
    (left.map Prod.fst).Perm others := by
  have hall := (hperm.map Prod.fst).symm.trans hkeys
  rw [List.map_append] at hall
  exact (List.perm_append_left_iff _).1 hall

theorem takeAlternatives_of_perm (consumer : Address) (alternatives : List Alternative)
    {pending : Pending} {others : List Address}
    (hkeys : (pending.map Prod.fst).Perm (alternatives.map Alternative.value ++ others)) :
    ∃ (entries incoming : List (Address × Expr)) (left : Pending),
      takeAlternatives consumer alternatives pending = .ok (incoming, left) ∧
        entries.map Prod.fst = alternatives.map Alternative.value ∧
        incoming.map Prod.fst = alternatives.map Alternative.label ∧
        incoming.map Prod.snd = entries.map Prod.snd ∧
        pending.Perm (entries ++ left) := by
  induction alternatives generalizing pending with
  | nil => exact ⟨[], [], pending, rfl, rfl, rfl, rfl, List.Perm.refl _⟩
  | cons alternative rest ih =>
      have hvalue : alternative.value ∈ pending.map Prod.fst :=
        hkeys.mem_iff.2 List.mem_cons_self
      obtain ⟨expr, left, htake, hperm⟩ := take_of_mem consumer hvalue
      have hleft : (left.map Prod.fst).Perm (rest.map Alternative.value ++ others) :=
        keys_perm_of_perm [(alternative.value, expr)] hperm hkeys
      obtain ⟨entries, incoming, final, hmore, hvalues, hlabels, hexprs, hfinal⟩ := ih hleft
      refine ⟨(alternative.value, expr) :: entries, (alternative.label, expr) :: incoming,
        final, ?_, ?_, ?_, ?_, hperm.trans (hfinal.cons _)⟩
      · simp only [takeAlternatives, htake, hmore]
      · rw [List.map_cons, List.map_cons, hvalues]
      · rw [List.map_cons, List.map_cons, hlabels]
      · rw [List.map_cons, List.map_cons, hexprs]

theorem takeSlot_of_perm {listing : Listing} (consumer : Address) {value : Address}
    {merge : Option Address} (hnoted : (Popped.mk (.value value) merge).Noted listing)
    {pending : Pending} {others : List Address}
    (hkeys : (pending.map Prod.fst).Perm
      ((Popped.mk (.value value) merge).taken listing ++ others)) :
    ∃ (entries : List (Address × Expr)) (expr : Expr) (left : Pending),
      takeSlot listing consumer value merge pending = .ok (expr, left) ∧
        Popped.Gives listing ⟨.value value, merge⟩ entries expr ∧
        entries.map Prod.fst = (Popped.mk (.value value) merge).taken listing ∧
        pending.Perm (entries ++ left) := by
  cases merge with
  | none =>
      have hvalue : value ∈ pending.map Prod.fst := hkeys.mem_iff.2 List.mem_cons_self
      obtain ⟨expr, left, htake, hperm⟩ := take_of_mem consumer hvalue
      exact ⟨[(value, expr)], expr, left, htake, .plain value expr, rfl, hperm⟩
  | some anchor =>
      obtain ⟨phi, hphi⟩ := Option.isSome_iff_exists.1 (hnoted.phi_isSome anchor rfl)
      have htaken : (Popped.mk (.value value) (some anchor)).taken listing = phi.values := by
        simp only [Popped.taken, hphi, Option.map_some, Option.getD_some]
      rw [htaken] at hkeys ⊢
      obtain ⟨entries, incoming, left, htake, hvalues, hlabels, hexprs, hperm⟩ :=
        takeAlternatives_of_perm anchor phi.alternatives hkeys
      refine ⟨entries, .phi anchor incoming, left, ?_,
        .merge value anchor phi entries incoming hphi hvalues hlabels hexprs, hvalues, hperm⟩
      simp only [takeSlot, takeMerge, hphi, htake]

/-- Operands are missing only where a slot holds no value. -/
theorem takeOperands_of_perm {listing : Listing} (consumer : Address)
    {slots : List Popped} (hnoted : ∀ slot ∈ slots, slot.Noted listing)
    {pending : Pending} {others : List Address}
    (hkeys : (pending.map Prod.fst).Perm (slots.flatMap (·.taken listing) ++ others)) :
    takeOperands listing consumer slots pending =
        .error (.inconsistent consumer .noValue) ∨
      ∃ (producers : List Address) (args : List Expr) (left : Pending)
        (entries : List (Address × Expr)),
        takeOperands listing consumer slots pending = .ok ((producers, args), left) ∧
          slots.map Popped.slot = producers.map Slot.value ∧
          Popped.GiveAll listing slots entries args ∧
          entries.map Prod.fst = slots.flatMap (·.taken listing) ∧
          pending.Perm (entries ++ left) := by
  induction slots generalizing pending with
  | nil =>
      exact Or.inr ⟨[], [], pending, [], rfl, rfl, .nil, rfl, List.Perm.refl _⟩
  | cons slot rest ih =>
      obtain ⟨slot, merge⟩ := slot
      cases slot with
      | hole => exact Or.inl rfl
      | value value =>
          rw [List.flatMap_cons, List.append_assoc] at hkeys
          obtain ⟨entries, expr, left, htake, hgives, hvalues, hperm⟩ :=
            takeSlot_of_perm consumer (hnoted _ List.mem_cons_self) hkeys
          rw [← hvalues] at hkeys
          have hleft := keys_perm_of_perm entries hperm hkeys
          have hrest := ih (fun other hother => hnoted other (List.mem_cons_of_mem _ hother))
            hleft
          rcases hrest with herror | ⟨producers, args, final, more, hmore, hslots, hall,
            hkeys, hfinal⟩
          · left
            simp only [takeOperands, htake, herror]
          · right
            refine ⟨value :: producers, expr :: args, final, entries ++ more, ?_, ?_,
              .cons hgives hall, ?_, ?_⟩
            · simp only [takeOperands, htake, hmore]
            · rw [List.map_cons, List.map_cons, hslots]
            · rw [List.map_append, hvalues, hkeys, List.flatMap_cons]
            · rw [List.append_assoc]
              exact hperm.trans (hfinal.append_left _)

end Pending

end StackLift
