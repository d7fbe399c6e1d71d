import StackLift.Proofs.Lift.OneStack
import StackLift.Proofs.Source.Blocks

/-!
# Lifting structured statements

Between two statements all branches are empty.  Whether or not a jump of a conditional or a
loop forks a branch, that branch ends where the jump leads, which is an end of a statement,
and it is dropped there.  So the code of every statement is lifted as a machine with one
stack would do it, no phi set arises, and each statement comes out with its own trees.
-/

namespace StackLift

/-! ## The one stack and plain expressions -/

namespace Source

variable {emitted : List Expr} {args : List Source} {start : Nat} {instruction : Instruction}

theorem run_codeAll
    (hargs : ∀ arg ∈ args, ∀ start rest stack,
      (OneStack.mk stack emitted).run (arg.code start ++ rest) =
        (OneStack.mk (arg.tree start :: stack) emitted).run rest)
    (start : Nat) (rest : List Instruction) (stack : List Expr) :
    (OneStack.mk stack emitted).run (codeAll args start ++ rest) =
      (OneStack.mk ((trees args start).reverse ++ stack) emitted).run rest := by
  induction args generalizing start stack with
  | nil => rfl
  | cons arg more ih =>
      rw [codeAll, trees, List.append_assoc, hargs arg List.mem_cons_self,
        ih fun other hother => hargs other (List.mem_cons_of_mem _ hother), List.reverse_cons,
        List.append_assoc, List.singleton_append]

/-- The code of a plain expression puts its tree on the stack. -/
theorem run_code {source : Source} (hplain : source.plain = true) (start : Nat)
    (rest : List Instruction) (stack : List Expr) :
    (OneStack.mk stack emitted).run (source.code start ++ rest) =
      (OneStack.mk (source.tree start :: stack) emitted).run rest := by
  revert start rest stack
  refine plain_induction (fun opcode operand args happly hargs start rest stack => ?_) hplain
  have hstep : (OneStack.mk ((trees args start).reverse ++ stack) emitted).step
      ⟨.ofNat (start + sizeAll args), opcode, operand⟩ =
        some ⟨(apply opcode operand args).tree start :: stack, emitted⟩ := by
    refine OneStack.step_eq_some_iff.2 ⟨(trees args start).reverse, stack, rfl, ?_, ?_⟩
    · rw [List.length_reverse, length_trees, happly.pops]
    · rw [happly.pushes, if_pos Nat.one_pos, List.reverse_reverse, tree]
  rw [code, List.append_assoc, run_codeAll hargs, List.singleton_append, OneStack.run, hstep]

theorem toNat_of_mem_codeAll (hlast : start + sizeAll args ≤ Address.last.toNat)
    (hmem : instruction ∈ codeAll args start) :
    start ≤ instruction.address.toNat ∧
      instruction.address.toNat < start + sizeAll args := by
  have haddress := List.mem_map_of_mem (f := Instruction.address) hmem
  rw [addresses_codeAll (fun arg _ => arg.addresses_code)] at haddress
  obtain ⟨offset, hoffset, heq⟩ := List.mem_map.1 haddress
  have hrange := List.mem_range'_1.1 hoffset
  rw [← heq, Address.toNat_ofNat (by omega)]
  exact hrange

theorem head?_codeAll (hargs : args ≠ []) (start : Nat) :
    (codeAll args start).head?.map Instruction.address = some (.ofNat start) := by
  have hpos := sizeAll_pos hargs
  rw [← List.head?_map, addresses_codeAll fun arg _ => arg.addresses_code, List.head?_map,
    List.head?_range', if_neg (by omega), Option.map_some]

theorem isForwardJump_of_mem_codeAll (hplain : ∀ arg ∈ args, arg.plain = true)
    (hmem : instruction ∈ codeAll args start) : instruction.isForwardJump = false := by
  have hpushes := forall_mem_codeAll (fun arg harg => pushes_code (hplain arg harg)) start
    instruction hmem
  rw [Instruction.isForwardJump, Instruction.jumpTarget?_of_endsBlock
    (Instruction.endsBlock_of_pushes (hpushes ▸ Nat.one_ne_zero))]
  rfl

end Source

/-- The walk stands before an offset and all branches are empty.  Each of them ends at the
offset or at an address of a set. -/
structure Engine.Idle (engine : Engine) (offset : Nat) (ends : Address → Prop) : Prop where
  active : engine.OnlyActive []
  cursor : engine.cursor.toNat ≤ offset
  bounds : ∀ bound ∈ engine.bounds, bound.2 = .ofNat offset ∨ ends bound.2

/-- Lifting a part of the code between two offsets, with all branches empty before it, adds
the given statements and leaves all branches empty.  The two sets are those of `Engine.Idle`
before and behind the part. -/
structure LiftsTo (code : List Instruction) (first start stop : Nat) (part : List Instruction)
    (before : Address → Prop) (statements : List Expr) (behind : Address → Prop) : Prop where
  length : start + part.length = stop
  lifts : ∀ {earlier later : List Instruction} {engine : Engine} {listing : Listing}
    {emitted : List Expr}, code = earlier ++ (part ++ later) → first + earlier.length = start →
    (OneStack.draft ⟨[], emitted⟩ listing).HoldsVisited engine code earlier →
    engine.Idle start before →
    ∃ walked producers, engine.visitAll (OneStack.draft ⟨[], emitted⟩ listing) part =
        (walked, .ok (OneStack.draft ⟨[], emitted ++ statements⟩
          { listing with producers := producers })) ∧
      walked.Idle stop behind

namespace LiftsTo

variable {code left right part : List Instruction} {first start middle stop : Nat}
  {before between behind : Address → Prop} {statements more : List Expr}

theorem nil : LiftsTo code first start start [] before [] before where
  length := rfl
  lifts {_ _ engine listing emitted} _ _ _ hidle := by
    refine ⟨engine, listing.producers, ?_, hidle⟩
    rw [Engine.visitAll, List.append_nil]

theorem append (hcode : Checked code)
    (hleft : LiftsTo code first start middle left before statements between)
    (hright : LiftsTo code first middle stop right between more behind) :
    LiftsTo code first start stop (left ++ right) before (statements ++ more) behind where
  length := by
    rw [List.length_append, ← Nat.add_assoc, hleft.length, hright.length]
  lifts {earlier later engine listing emitted} hsplit hstart hholds hidle := by
    rw [List.append_assoc] at hsplit
    obtain ⟨between, producers, hvisit, hbetween⟩ := hleft.lifts hsplit hstart hholds hidle
    have hnext := hholds.of_visitAll hcode hsplit hvisit
    obtain ⟨walked, noted, hvisits, hwalked⟩ := hright.lifts
      (by rw [hsplit, List.append_assoc])
      (by rw [List.length_append, ← Nat.add_assoc, hstart, hleft.length]) hnext hbetween
    refine ⟨walked, noted, ?_, hwalked⟩
    rw [Engine.visitAll_append hvisit, hvisits, List.append_assoc]

/-- Branches that end where the part does need not be named. -/
theorem imp (hlifts : LiftsTo code first start stop part before statements between)
    (hends : ∀ address, between address → address = .ofNat stop ∨ behind address) :
    LiftsTo code first start stop part before statements behind where
  length := hlifts.length
  lifts hsplit hstart hholds hidle := by
    obtain ⟨walked, producers, hvisit, hactive, hcursor, hbounds⟩ :=
      hlifts.lifts hsplit hstart hholds hidle
    refine ⟨walked, producers, hvisit, hactive, hcursor, fun bound hbound => ?_⟩
    rcases hbounds bound hbound with hends' | hbetween
    · exact Or.inl hends'
    · exact hends _ hbetween

end LiftsTo

/-- A set of addresses and one more. -/
def alsoAt (offset : Nat) (ends : Address → Prop) (address : Address) : Prop :=
  address = .ofNat offset ∨ ends address

theorem le_of_alsoAt {offset : Nat} {ends : Address → Prop}
    (hbound : offset ≤ Address.last.toNat) (hends : ∀ stop, ends stop → offset ≤ stop.toNat)
    (stop : Address) (hstop : alsoAt offset ends stop) : offset ≤ stop.toNat := by
  rcases hstop with rfl | hstop
  · exact Nat.le_of_eq (Address.toNat_ofNat hbound).symm
  · exact hends stop hstop

theorem ofNat_le_of_le {offset : Nat} {address : Address} (hle : offset ≤ address.toNat) :
    .ofNat offset ≤ address :=
  Address.le_iff_toNat_le.2 (Nat.le_trans (Address.toNat_ofNat_le offset) hle)

/-! ## One instruction with its operands -/

section Instruction

variable {code earlier later : List Instruction} {first start : Nat} {args : List Source}
  {instruction : Instruction} {before behind : Address → Prop}

/-- The way through some operands is clear if the branches that last, last beyond them. -/
theorem Engine.Idle.clear {engine : Engine} (hidle : engine.Idle start before)
    (hlast : start + Source.sizeAll args ≤ Address.last.toNat)
    (hbefore : ∀ stop, before stop → start + Source.sizeAll args < stop.toNat)
    (emitted : List Expr) :
    OneStack.Clear engine ⟨[], emitted⟩ (Source.codeAll args start) where
  forward other hother := by
    have hstart := (Source.toNat_of_mem_codeAll hlast hother).1
    exact Address.le_iff_toNat_le.2 (Nat.le_trans hidle.cursor hstart)
  reached bound hbound := by
    rcases hidle.bounds bound hbound with hends | hlasts
    · by_cases hargs : args = []
      · left
        intro other hother
        rw [hargs] at hother
        cases hother
      · exact Or.inr ⟨hends ▸ Source.head?_codeAll hargs start, rfl⟩
    · left
      intro other hother
      have hstop := (Source.toNat_of_mem_codeAll hlast hother).2
      exact Address.lt_iff_toNat_lt.2 (Nat.lt_trans hstop (hbefore bound.2 hlasts))

/-- Behind the operands the instruction that takes them lies ahead. -/
theorem Engine.Idle.ahead_operands {engine walked : Engine} (hidle : engine.Idle start before)
    (hlast : start + Source.sizeAll args < Address.last.toNat)
    (hbefore : ∀ stop, before stop → start + Source.sizeAll args < stop.toNat)
    (hcursor : walked.cursor = engine.cursor ∨
      walked.cursor ∈ (Source.codeAll args start).map Instruction.address)
    (hbounds : ∀ bound ∈ walked.bounds, bound ∈ engine.bounds ∧
      ∀ other ∈ Source.codeAll args start, other.address < bound.2) (emitted : List Expr) :
    walked.Ahead (OneStack.slots ⟨(Source.trees args start).reverse, emitted⟩)
      (.ofNat (start + Source.sizeAll args)) := by
  have htoNat : (Address.ofNat (start + Source.sizeAll args)).toNat =
      start + Source.sizeAll args := Address.toNat_ofNat (by omega)
  refine ⟨?_, ?_, ?_⟩
  · rw [Address.le_iff_toNat_le, htoNat]
    rcases hcursor with heq | hmem
    · rw [heq]
      exact Nat.le_trans hidle.cursor (Nat.le_add_right _ _)
    · obtain ⟨other, hother, heq⟩ := List.mem_map.1 hmem
      rw [← heq]
      exact Nat.le_of_lt (Source.toNat_of_mem_codeAll (Nat.le_of_lt hlast) hother).2
  · rw [Address.lt_iff_toNat_lt, htoNat]
    exact hlast
  · intro bound hbound
    obtain ⟨hold, hbeyond⟩ := hbounds bound hbound
    rcases hidle.bounds bound hold with hends | hlasts
    · -- what ends at the start is still there only if there are no operands
      by_cases hargs : args = []
      · right
        subst hargs
        exact ⟨hends, rfl⟩
      · obtain ⟨other, hother, heq⟩ :=
          Option.map_eq_some_iff.1 (Source.head?_codeAll hargs start)
        have hlt := hbeyond other (List.mem_of_mem_head? hother)
        rw [heq, hends] at hlt
        exact absurd hlt (lt_irrefl _)
    · left
      rw [Address.lt_iff_toNat_lt, htoNat]
      exact hbefore bound.2 hlasts

/-- Operands are put on the active branch, and branches that end before the first of them
are dropped. -/
theorem visitAll_operands (hlaid : Laid code first) (hplain : ∀ arg ∈ args, arg.plain = true)
    (hsplit : code = earlier ++ (Source.codeAll args start ++ instruction :: later))
    (hstart : first + earlier.length = start) {engine : Engine} {listing : Listing}
    {emitted : List Expr}
    (hholds : (OneStack.draft ⟨[], emitted⟩ listing).HoldsVisited engine code earlier)
    (hidle : engine.Idle start before)
    (hbefore : ∀ stop, before stop → start + Source.sizeAll args < stop.toNat) :
    ∃ walked producers,
      engine.visitAll (OneStack.draft ⟨[], emitted⟩ listing) (Source.codeAll args start) =
        (walked, .ok (OneStack.draft ⟨(Source.trees args start).reverse, emitted⟩
          { listing with producers := producers })) ∧
      walked.OnlyActive (OneStack.slots ⟨(Source.trees args start).reverse, emitted⟩) ∧
      walked.Ahead (OneStack.slots ⟨(Source.trees args start).reverse, emitted⟩)
        (.ofNat (start + Source.sizeAll args)) ∧
      ∀ bound ∈ walked.bounds, bound ∈ engine.bounds := by
  have hlast : start + Source.sizeAll args < Address.last.toNat := by
    have hbound := hlaid.stop_le_last hsplit hstart
    rw [List.length_cons, Source.length_codeAll fun arg _ => arg.length_code] at hbound
    omega
  have hrun : (OneStack.mk [] emitted).run (Source.codeAll args start) =
      .ok ⟨(Source.trees args start).reverse, emitted⟩ := by
    rw [← List.append_nil (Source.codeAll args start),
      Source.run_codeAll fun arg harg => Source.run_code (hplain arg harg), List.append_nil,
      OneStack.run]
  rcases OneStack.visitAll_cases hlaid.checked _
      (fun other hother => Source.isForwardJump_of_mem_codeAll hplain hother) hholds hsplit
      hidle.active (hidle.clear (Nat.le_of_lt hlast) hbefore emitted) with
    ⟨address, _, _, _, hfails, _⟩ |
      ⟨final, walked, producers, hruns, hvisit, hwalked, hreached, hkept⟩
  · rw [hrun] at hfails
    cases hfails
  · rw [hrun] at hruns
    cases hruns
    have hsub : ∀ bound ∈ walked.bounds, bound ∈ engine.bounds ∧
        ∀ other ∈ Source.codeAll args start, other.address < bound.2 := by
      intro bound hbound
      rw [hkept, List.mem_filter, List.all_eq_true] at hbound
      exact ⟨hbound.1, fun other hother => of_decide_eq_true (hbound.2 other hother)⟩
    exact ⟨walked, producers, hvisit, hwalked,
      hidle.ahead_operands hlast hbefore hreached hsub emitted,
      fun bound hbound => (hsub bound hbound).1⟩

/-- What a jump forks ends at an address of the second set. -/
theorem Engine.idle_forkAt {popped : Engine} {listing : Listing} {address : Address}
    {offset : Nat} (hpopped : popped.OnlyActive []) (hcursor : popped.cursor.toNat ≤ offset)
    (hbounds : ∀ bound ∈ popped.bounds, before bound.2)
    (hbehind : ∀ stop, before stop → behind stop)
    (hfork : ∀ target, forkTarget? listing address = some target →
      popped.cursor < target ∧ behind target ∧ ∀ stop, before stop → target ≤ stop) :
    (popped.forkAt listing address).Idle offset behind := by
  rw [forkAt]
  split
  · next target htarget =>
    obtain ⟨hopen, htarget, hwithin⟩ := hfork target htarget
    refine ⟨hpopped.fork hopen fun bound hbound => hwithin _ (hbounds bound hbound), hcursor, ?_⟩
    intro bound hbound
    rw [bounds_fork] at hbound
    rcases List.mem_append.1 hbound with hbound | hbound
    · exact Or.inr (hbehind _ (hbounds bound hbound))
    · rw [List.mem_singleton.1 hbound]
      exact Or.inr htarget
  · exact ⟨hpopped, hcursor, fun bound hbound => Or.inr (hbehind _ (hbounds bound hbound))⟩

/-- An instruction that leaves nothing, with its operands.  It may fork a branch that lasts
up to an address of the second set, and no longer than the others. -/
theorem liftsTo_instruction (hlaid : Laid code first) (hplain : ∀ arg ∈ args, arg.plain = true)
    (haddress : instruction.address = .ofNat (start + Source.sizeAll args))
    (hpops : instruction.pops = args.length) (hpushes : instruction.pushes = 0)
    (hbefore : ∀ stop, before stop → start + Source.sizeAll args < stop.toNat ∧ behind stop)
    (hfork : ∀ listing : Listing, listing.Indexes code →
      ∀ target, Engine.forkTarget? listing instruction.address = some target →
        instruction.jumpTarget? = some target → instruction.address < target →
        behind target ∧ ∀ stop, before stop → target ≤ stop) :
    LiftsTo code first start (start + Source.sizeAll args + 1)
      (Source.codeAll args start ++ [instruction]) before
      [.op instruction.address instruction.opcode instruction.operand
        (Source.trees args start)] behind where
  length := by
    rw [List.length_append, Source.length_codeAll fun arg _ => arg.length_code,
      List.length_singleton, Nat.add_assoc]
  lifts {earlier later engine listing emitted} hsplit hstart hholds hidle := by
    rw [List.append_assoc, List.singleton_append] at hsplit
    have hmem : instruction ∈ code := by
      rw [hsplit]
      exact List.mem_append_right _ (List.mem_append_right _ List.mem_cons_self)
    obtain ⟨loaded, producers, hvisits, hloaded, hahead, hsub⟩ :=
      visitAll_operands hlaid hplain hsplit hstart hholds hidle
        fun stop hstop => (hbefore stop hstop).1
    have hsupplied := hholds.of_visitAll hlaid.checked hsplit hvisits
    have hindex : Listing.Indexes { listing with producers := producers } code :=
      hsupplied.tracks.indexes
    have hstep : (OneStack.mk (Source.trees args start).reverse emitted).step instruction =
        some ⟨[], emitted ++ [.op instruction.address instruction.opcode instruction.operand
          (Source.trees args start)]⟩ := by
      refine OneStack.step_eq_some_iff.2 ⟨(Source.trees args start).reverse, [],
        (List.append_nil _).symm, ?_, ?_⟩
      · rw [List.length_reverse, Source.length_trees, hpops]
      · rw [hpushes, if_neg (Nat.lt_irrefl 0), List.reverse_reverse]
    rw [← haddress] at hahead
    obtain ⟨popped, noted, hvisit, hpopped, hcursor, hbounds⟩ :=
      OneStack.exists_popped hlaid.checked hmem hsupplied hloaded hahead hstep
    rw [hpushes, if_neg (Nat.lt_irrefl 0)] at hvisit hpopped
    refine ⟨popped.forkAt { listing with producers := producers } instruction.address, noted, ?_,
      Engine.idle_forkAt hpopped ?_ ?_ (fun stop hstop => (hbefore stop hstop).2) ?_⟩
    · rw [Engine.visitAll_append hvisits, Engine.visitAll, hvisit]
      rfl
    · rw [hcursor, haddress]
      exact Nat.le_succ_of_le (Address.toNat_ofNat_le _)
    · intro bound hbound
      rw [hbounds, List.mem_filter, decide_eq_true_iff, haddress] at hbound
      rcases hidle.bounds bound (hsub bound hbound.1) with hends | hlasts
      · have hlast := hlaid.stop_le_last hsplit hstart
        rw [List.length_cons, Source.length_codeAll fun arg _ => arg.length_code] at hlast
        rw [hends, Address.lt_iff_toNat_lt, Address.toNat_ofNat (by omega),
          Address.toNat_ofNat (by omega)] at hbound
        omega
      · exact hlasts
    · intro target htarget
      obtain ⟨hjump, hforward⟩ :=
        Engine.jumpTarget?_of_forkTarget? hindex hlaid.checked hmem htarget
      rw [Instruction.isForwardJump, hjump, Option.any_some, decide_eq_true_iff] at hforward
      exact ⟨hcursor ▸ hforward, hfork _ hindex target htarget hjump hforward⟩

/-- The target of a jump is the end of what it forks. -/
theorem Instruction.eq_of_jumpTarget?_jump {address target forked : Address} {opcode : Opcode}
    (hjump : (Instruction.jump address opcode target).jumpTarget? = some forked) :
    target = forked := by
  change (if opcode.isJump then some target else none) = some forked at hjump
  split at hjump
  · exact Option.some.inj hjump
  · cases hjump

/-- A test and the jump that it decides. -/
theorem liftsTo_decision (hlaid : Laid code first) {test : Source} (hplain : test.plain = true)
    {opcode : Opcode} {target : Nat} (heffect : opcode.effect? = some ⟨1, 0⟩)
    (hbefore : ∀ stop, before stop → start + test.size < stop.toNat ∧ behind stop)
    (hfork : ∀ listing : Listing, listing.Indexes code →
      Engine.forkTarget? listing (.ofNat (start + test.size)) = some (.ofNat target) →
      Address.ofNat (start + test.size) < .ofNat target →
      behind (.ofNat target) ∧ ∀ stop, before stop → .ofNat target ≤ stop) :
    LiftsTo code first start (start + test.size + 1) (test.decision opcode target start) before
      [test.decisionTree opcode target start] behind := by
  have hsize := Source.sizeAll_singleton test
  have hlifts := @liftsTo_instruction code first start [test]
    (.jump (.ofNat (start + test.size)) opcode (.ofNat target)) before behind hlaid
    (fun arg harg => List.mem_singleton.1 harg ▸ hplain) (by rw [hsize]; rfl)
    (by simp [Instruction.pops, Instruction.jump, heffect])
    (by simp [Instruction.pushes, Instruction.jump, heffect]) (by rw [hsize]; exact hbefore)
    (fun listing hindex forked hforks hjump hforward => by
      obtain rfl := Instruction.eq_of_jumpTarget?_jump hjump
      exact hfork listing hindex hforks hforward)
  rw [Source.codeAll_singleton, hsize] at hlifts
  exact hlifts

/-- A jump back on a test forks nothing. -/
theorem liftsTo_repeat (hlaid : Laid code first) {test : Source} (hplain : test.plain = true)
    {target : Nat} (hback : target ≤ start + test.size)
    (hbound : start + test.size < Address.last.toNat)
    (hbefore : ∀ stop, before stop → start + test.size < stop.toNat) :
    LiftsTo code first start (start + test.size + 1) (test.decision .brtrue target start) before
      [test.decisionTree .brtrue target start] before := by
  refine liftsTo_decision hlaid hplain rfl (fun stop hstop => ⟨hbefore stop hstop, hstop⟩) ?_
  intro listing _ _ hforward
  rw [Address.lt_iff_toNat_lt, Address.toNat_ofNat (by omega),
    Address.toNat_ofNat (by omega)] at hforward
  omega

/-- A jump in any case.  If it forks, then the branch ends where it leads. -/
theorem liftsTo_jump (hlaid : Laid code first) {target : Nat} (hforward : start < target)
    (hwithin : ∀ stop, before stop → target ≤ stop.toNat) :
    LiftsTo code first start (start + 1) [.jump (.ofNat start) .br (.ofNat target)] before
      [.op (.ofNat start) .br (.target (.ofNat target)) []] (alsoAt target before) := by
  refine @liftsTo_instruction code first start [] (.jump (.ofNat start) .br (.ofNat target))
    before (alsoAt target before) hlaid (fun arg harg => by cases harg) rfl rfl rfl
    (fun stop hstop => ⟨Nat.lt_of_lt_of_le hforward (hwithin stop hstop), Or.inr hstop⟩) ?_
  intro listing _ forked _ hjump _
  obtain rfl := Instruction.eq_of_jumpTarget?_jump hjump
  exact ⟨Or.inl rfl, fun stop hstop => ofNat_le_of_le (hwithin stop hstop)⟩

end Instruction

namespace Block

/-- The code of a statement is lifted with all branches empty before and behind it, wherever
it stands and wherever behind it the branches end. -/
def LiftsEverywhere (instructions : List Instruction) (first : Nat) (block : Block) : Prop :=
  ∀ (start : Nat) (ends : Address → Prop), start + block.size ≤ Address.last.toNat →
    (∀ stop, ends stop → start + block.size ≤ stop.toNat) →
    LiftsTo instructions first start (start + block.size) (block.code start) ends
      (block.statements start) ends

variable {instructions : List Instruction} {first : Nat}

theorem liftsEverywhere_effect (hlaid : Laid instructions first) {opcode : Opcode}
    {operand : Operand} {args : List Source} (heffect : FitsEffect opcode operand args) :
    LiftsEverywhere instructions first (effect opcode operand args) := by
  intro start ends _ hends
  refine liftsTo_instruction hlaid heffect.plain rfl (heffect.pops _) (heffect.pushes _)
    (fun stop hstop => ⟨hends stop hstop, hstop⟩) ?_
  intro listing _ target _ hjump _
  rw [heffect.jumpTarget?] at hjump
  cases hjump

theorem liftsEverywhere_seq (hlaid : Laid instructions first) {former latter : Block}
    (hformer : LiftsEverywhere instructions first former)
    (hlatter : LiftsEverywhere instructions first latter) :
    LiftsEverywhere instructions first (seq former latter) := by
  intro start ends hbound hends
  rw [size] at hbound hends
  have hfirst := hformer start ends (by omega) fun stop hstop => by
    have := hends stop hstop
    omega
  have hsecond := hlatter (start + former.size) ends (by omega) fun stop hstop => by
    have := hends stop hstop
    omega
  rw [code, statements, size, ← Nat.add_assoc]
  exact hfirst.append hlaid.checked hsecond

theorem liftsEverywhere_ifThen (hlaid : Laid instructions first) {test : Source} {body : Block}
    (hplain : test.plain = true) (hbody : LiftsEverywhere instructions first body) :
    LiftsEverywhere instructions first (ifThen test body) := by
  intro start ends hbound hends
  have hstop : start + (ifThen test body).size = start + test.size + 1 + body.size := by
    rw [size]
    omega
  rw [hstop] at hbound hends
  -- if the jump over the body forks, then the branch ends where the conditional does
  have htest : LiftsTo instructions first start (start + test.size + 1)
      (test.decision .brfalse (start + test.size + 1 + body.size) start) ends
      [test.decisionTree .brfalse (start + test.size + 1 + body.size) start]
      (alsoAt (start + test.size + 1 + body.size) ends) := by
    refine liftsTo_decision hlaid hplain rfl (fun stop hstop => ⟨?_, Or.inr hstop⟩) ?_
    · have := hends stop hstop
      omega
    · exact fun _ _ _ _ => ⟨Or.inl rfl, fun stop hstop => ofNat_le_of_le (hends stop hstop)⟩
  have hrest := hbody (start + test.size + 1) (alsoAt (start + test.size + 1 + body.size) ends)
    hbound (le_of_alsoAt hbound hends)
  rw [code, statements, hstop]
  exact (htest.append hlaid.checked hrest).imp fun stop hstop => hstop

/-- The jump to the second part does not fork, since another jump stands before that part. -/
theorem forkTarget?_ifElse (hlaid : Laid instructions first) {test : Source} {yes no : Block}
    {earlier later : List Instruction} {start : Nat}
    (hsplit : instructions = earlier ++ ((ifElse test yes no).code start ++ later))
    (hstart : first + earlier.length = start) {listing : Listing}
    (hindex : listing.Indexes instructions) :
    Engine.forkTarget? listing (.ofNat (start + test.size)) = none := by
  have hlast := hlaid.stop_le_last hsplit hstart
  rw [length_code, size] at hlast
  have hmem : ∀ instruction ∈ (ifElse test yes no).code start, instruction ∈ instructions :=
    fun instruction hinstruction => by
      rw [hsplit]
      exact List.mem_append_right _ (List.mem_append_left _ hinstruction)
  have hskip := hmem (.jump (.ofNat (start + test.size)) .brfalse
    (.ofNat (start + test.size + 1 + yes.size + 1))) (by simp [code, Source.decision])
  have hleave := hmem (.jump (.ofNat (start + test.size + 1 + yes.size)) .br
    (.ofNat (start + test.size + 1 + yes.size + 1 + no.size))) (by simp [code])
  exact hlaid.forkTarget?_of_endsBlock hindex hskip rfl rfl hleave rfl rfl (by omega)
    (hlaid.lt_of_mem_addresses (by omega) (hlaid.checked.landing _ hskip _ rfl))

theorem liftsEverywhere_ifElse (hlaid : Laid instructions first) {test : Source} {yes no : Block}
    (hplain : test.plain = true) (hyes : LiftsEverywhere instructions first yes)
    (hno : LiftsEverywhere instructions first no) :
    LiftsEverywhere instructions first (ifElse test yes no) := by
  intro start ends hbound hends
  have hstop : start + (ifElse test yes no).size =
      start + test.size + 1 + yes.size + 1 + no.size := by
    rw [size]
    omega
  rw [hstop] at hbound hends
  have hyes := hyes (start + test.size + 1) ends (by omega) fun stop hstop => by
    have := hends stop hstop
    omega
  have hleave := @liftsTo_jump instructions first (start + test.size + 1 + yes.size) ends hlaid
    (start + test.size + 1 + yes.size + 1 + no.size) (by omega) hends
  have hno := hno (start + test.size + 1 + yes.size + 1)
    (alsoAt (start + test.size + 1 + yes.size + 1 + no.size) ends) hbound
    (le_of_alsoAt hbound hends)
  have hrest := (hyes.append hlaid.checked (hleave.append hlaid.checked hno)).imp
    (fun stop hstop => hstop)
  refine ⟨by rw [length_code], fun hsplit hat hholds hidle => ?_⟩
  have htest : LiftsTo instructions first start (start + test.size + 1)
      (test.decision .brfalse (start + test.size + 1 + yes.size + 1) start) ends
      [test.decisionTree .brfalse (start + test.size + 1 + yes.size + 1) start] ends := by
    refine liftsTo_decision hlaid hplain rfl (fun stop hstop => ⟨?_, hstop⟩) ?_
    · have := hends stop hstop
      omega
    · intro listing hindex hforks _
      rw [forkTarget?_ifElse hlaid hsplit hat hindex] at hforks
      cases hforks
  rw [code] at hsplit ⊢
  rw [statements, hstop]
  exact (htest.append hlaid.checked hrest).lifts hsplit hat hholds hidle

theorem liftsEverywhere_doWhile (hlaid : Laid instructions first) {body : Block} {test : Source}
    (hplain : test.plain = true) (hbody : LiftsEverywhere instructions first body) :
    LiftsEverywhere instructions first (doWhile body test) := by
  intro start ends hbound hends
  have hstop : start + (doWhile body test).size = start + body.size + test.size + 1 := by
    rw [size]
    omega
  rw [hstop] at hbound hends
  have hfirst := hbody start ends (by omega) fun stop hstop => by
    have := hends stop hstop
    omega
  have htest := @liftsTo_repeat instructions first (start + body.size) ends hlaid test hplain start
    (by omega) (by omega) hends
  rw [code, statements, hstop]
  exact hfirst.append hlaid.checked htest

theorem liftsEverywhere_whileDo (hlaid : Laid instructions first) {test : Source} {body : Block}
    (hplain : test.plain = true) (hbody : LiftsEverywhere instructions first body) :
    LiftsEverywhere instructions first (whileDo test body) := by
  intro start ends hbound hends
  have hstop : start + (whileDo test body).size = start + 1 + body.size + test.size + 1 := by
    rw [size]
    omega
  rw [hstop] at hbound hends
  have hlater : ∀ stop, ends stop → start + 1 + body.size ≤ stop.toNat := fun stop hstop => by
    have := hends stop hstop
    omega
  have henter := @liftsTo_jump instructions first start ends hlaid (start + 1 + body.size)
    (by omega) hlater
  have hbody := hbody (start + 1) (alsoAt (start + 1 + body.size) ends) (by omega)
    (le_of_alsoAt (by omega) hlater)
  have htest := @liftsTo_repeat instructions first (start + 1 + body.size) ends hlaid test hplain
    (start + 1) (by omega) (by omega) hends
  rw [code, statements, hstop]
  exact henter.append hlaid.checked
    ((hbody.imp fun stop hstop => hstop).append hlaid.checked htest)

theorem liftsEverywhere (hlaid : Laid instructions first) {block : Block}
    (hfits : block.fits = true) :
    LiftsEverywhere instructions first block := by
  induction block with
  | effect opcode operand args => exact liftsEverywhere_effect hlaid (fits_effect hfits)
  | skip => exact fun _ _ _ _ => .nil
  | seq former latter hformer hlatter =>
      rw [fits, Bool.and_eq_true] at hfits
      exact liftsEverywhere_seq hlaid (hformer hfits.1) (hlatter hfits.2)
  | ifThen test body hbody =>
      rw [fits, Bool.and_eq_true] at hfits
      exact liftsEverywhere_ifThen hlaid hfits.1 (hbody hfits.2)
  | ifElse test yes no hyes hno =>
      rw [fits, Bool.and_eq_true, Bool.and_eq_true] at hfits
      exact liftsEverywhere_ifElse hlaid hfits.1.1 (hyes hfits.1.2) (hno hfits.2)
  | doWhile body test hbody =>
      rw [fits, Bool.and_eq_true] at hfits
      exact liftsEverywhere_doWhile hlaid hfits.2 (hbody hfits.1)
  | whileDo test body hbody =>
      rw [fits, Bool.and_eq_true] at hfits
      exact liftsEverywhere_whileDo hlaid hfits.1 (hbody hfits.2)

/-- The walk of a method starts on its main branch, which lasts to the end. -/
theorem idle_withMain (id : BranchId) (offset : Nat) :
    (Engine.withMain id).Idle offset fun stop => stop = .last where
  active := Engine.onlyActive_withMain id
  cursor := Nat.zero_le offset
  bounds bound hbound := by
    rw [List.mem_singleton.1 hbound]
    exact Or.inr rfl

/-- A statement with the return behind it. -/
theorem liftsTo_program (hlaid : Laid instructions first) {block : Block}
    (hfits : block.fits = true) {start : Nat}
    (hbound : start + block.size < Address.last.toNat) :
    LiftsTo instructions first start (start + block.size + 1) (block.program start)
      (fun stop => stop = .last)
      (block.statements start ++ [.op (.ofNat (start + block.size)) .retVoid .absent []])
      fun stop => stop = .last := by
  have hcode := liftsEverywhere hlaid hfits start (fun stop => stop = .last) (Nat.le_of_lt hbound)
    fun stop hstop => hstop ▸ Nat.le_of_lt hbound
  have hreturn := @liftsTo_instruction instructions first (start + block.size) []
    ⟨.ofNat (start + block.size), .retVoid, .absent⟩ (fun stop => stop = .last)
    (fun stop => stop = .last) hlaid (fun arg harg => by cases harg) rfl rfl rfl
    (fun stop hstop => ⟨hstop ▸ hbound, hstop⟩) (fun _ _ _ _ hjump => by cases hjump)
  exact hcode.append hlaid.checked hreturn

/-- Lifting the code of structured statements succeeds without phi sets.  There is one
statement for each instruction that leaves nothing, in the order of the code, with the trees
of its own expressions, and the labels are the targets of the jumps. -/
theorem lift_structured (engine : Engine) (block : Block) (name : String) (start : Nat)
    (hfits : block.fits = true) (hbound : start + block.size < Address.last.toNat) :
    ∃ lifted, (engine.lift (block.method name start)).2 = .ok lifted ∧
      lifted.statements.map Statement.expr =
        block.statements start ++ [.op (.ofNat (start + block.size)) .retVoid .absent []] ∧
      lifted.statements.map (fun statement => statement.expr.op?) =
        ((block.program start).filter fun instruction => instruction.pushes = 0).map some ∧
      lifted.phis = [] ∧ lifted.labels.Pairwise (· < ·) ∧
      ∀ address, address ∈ lifted.labels ↔
        ∃ jump ∈ block.program start, jump.jumpTarget? = some address := by
  have hlaid := laid_program hfits hbound
  obtain ⟨listing, hlisting⟩ : ∃ listing,
      Listing.ofMethod (block.method name start) = .ok listing :=
    ⟨_, Listing.ofMethod_eq_ok_iff.2 ⟨hlaid.checked, rfl⟩⟩
  have hphis := Listing.phis_of_ofMethod hlisting
  have hstart := Draft.holdsVisited_start (Listing.indexes_of_ofMethod hlisting) hphis engine.nextId
  have hfresh : (OneStack.draft ⟨[], []⟩ listing).HoldsVisited (.withMain engine.nextId)
      (block.program start) [] := hstart
  obtain ⟨walked, producers, hvisit, _⟩ := (liftsTo_program hlaid hfits hbound).lifts
    (List.append_nil _).symm rfl hfresh (idle_withMain engine.nextId start)
  have hwalks : engine.Walks (block.method name start) listing walked _ :=
    ⟨hlisting, hstart, hvisit⟩
  obtain ⟨lifted, hlift, hstatements, hrest⟩ := hwalks.lift_of_phis rfl hphis
  refine ⟨lifted, hlift, ?_, ?_, hrest⟩
  · rw [hstatements, OneStack.draft, List.reverse_reverse, List.nil_append]
  · have hroots := hwalks.holdsVisited.roots
    rw [← hstatements, List.map_map] at hroots
    exact hroots

/-- `while (a0) { if (a1) { do x0 = x0 - 1 while (x0) } else { } if (a2) call f(a3) }`. -/
def loops : Block :=
  let argument index : Source := .apply .ldarg (.argument index) []
  let variable0 : Source := .apply .ldloc (.localVar 0) []
  let less : Source := .apply .sub .absent [variable0, .apply .ldcI4 (.int32 1) []]
  .whileDo (argument 0) (.seq
    (.ifElse (argument 1) (.doWhile (.effect .stloc (.localVar 0) [less]) variable0) .skip)
    (.ifThen (argument 2) (.effect .call (.call ⟨100, 1, false⟩) [argument 3])))

theorem lift_structured_loops :
    loops.fits = true ∧ 16 + loops.size < Address.last.toNat ∧
      ∃ lifted, (Engine.new.lift (loops.method "loops" 16)).2 = .ok lifted ∧
        lifted.statements.map Statement.expr =
          loops.statements 16 ++ [.op (.ofNat (16 + loops.size)) .retVoid .absent []] ∧
        lifted.statements.map (fun statement => statement.expr.op?) =
          ((loops.program 16).filter fun instruction => instruction.pushes = 0).map some ∧
        lifted.phis = [] ∧ lifted.labels.Pairwise (· < ·) ∧
        ∀ address, address ∈ lifted.labels ↔
          ∃ jump ∈ loops.program 16, jump.jumpTarget? = some address := by
  have hfits : loops.fits = true := by decide
  have hbound : 16 + loops.size < Address.last.toNat := by decide
  exact ⟨hfits, hbound, lift_structured .new loops "loops" 16 hfits hbound⟩

end Block

end StackLift
