import StackLift.Proofs.Listing.Checked
import StackLift.Proofs.Source.Syntax
import StackLift.Stack.Engine

/-!
# Code at consecutive addresses

In code at consecutive addresses the neighbours of an instruction are known.  The
jumps into a part of such code are those of the part itself, if all other jumps
lead past it.  From this it follows where the engine forks: at the jump that ends
the first arm of a choice, and nowhere else.
-/

namespace StackLift

/-- The code is valid and stands at consecutive addresses. -/
structure Laid (code : List Instruction) (first : Nat) : Prop where
  addresses : code.map Instruction.address =
    (List.range' first code.length).map Address.ofNat
  bound : first + code.length ≤ Address.last.toNat
  checked : Checked code

/-- A part of the code between an offset and its end, into which no jump leads from
elsewhere. -/
structure Site (code : List Instruction) (first : Nat)
    (before part after : List Instruction) (start : Nat) : Prop where
  split : code = before ++ (part ++ after)
  start_eq : first + before.length = start
  clear : ∀ jump ∈ before ++ after, ∀ target, jump.jumpTarget? = some target →
    target.toNat ≤ start ∨ start + part.length ≤ target.toNat

namespace Laid

variable {code : List Instruction} {first : Nat} {listing : Listing}

theorem getElem?_address (hlaid : Laid code first) {place : Nat}
    (hplace : place < code.length) :
    (code[place]?).map Instruction.address = some (.ofNat (first + place)) := by
  rw [← List.getElem?_map, hlaid.addresses, List.getElem?_map,
    List.getElem?_eq_getElem (by simpa using hplace), List.getElem_range', Nat.one_mul,
    Option.map_some]

theorem address_of_split (hlaid : Laid code first) {before after : List Instruction}
    {instruction : Instruction} (hsplit : code = before ++ instruction :: after) :
    instruction.address = .ofNat (first + before.length) := by
  have haddress := hlaid.getElem?_address (show before.length < code.length by simp [hsplit])
  have hget : code[before.length]? = some instruction := by
    rw [hsplit, List.getElem?_append_right (Nat.le_refl _), Nat.sub_self,
      List.getElem?_cons_zero]
  rw [hget, Option.map_some, Option.some.injEq] at haddress
  exact haddress

theorem next? (hlaid : Laid code first) (hindex : listing.Indexes code) {offset : Nat}
    (hlow : first ≤ offset) (hhigh : offset + 1 < first + code.length) :
    listing.next? (.ofNat offset) = some (.ofNat (offset + 1)) := by
  rw [hindex.next?_eq_some_iff hlaid.checked]
  refine ⟨offset - first, ?_, ?_⟩
  · rw [hlaid.getElem?_address (by omega)]
    congr 2
    omega
  · rw [hlaid.getElem?_address (by omega)]
    congr 2
    omega

theorem getElem?_index (hlaid : Laid code first) (hindex : listing.Indexes code)
    {offset : Nat} (hlow : first ≤ offset) (hhigh : offset < first + code.length) :
    listing.index[Address.ofNat offset]? = some (offset - first) := by
  rw [hindex.getElem?_index hlaid.checked, hlaid.getElem?_address (by omega)]
  congr 2
  omega

theorem previous? (hlaid : Laid code first) (hindex : listing.Indexes code) {offset : Nat}
    (hlow : first ≤ offset) (hhigh : offset + 1 < first + code.length) :
    listing.previous? (.ofNat (offset + 1)) = some (.ofNat offset) := by
  have hplace : offset + 1 - first = offset - first + 1 := by omega
  rw [Listing.previous?, hlaid.getElem?_index hindex (by omega) hhigh, hplace]
  simp only
  rw [hindex.getElem?_instructions, hlaid.getElem?_address (by omega)]
  congr 2
  omega

/-- The instruction at an offset of the code. -/
theorem instruction? (hlaid : Laid code first) (hindex : listing.Indexes code)
    {instruction : Instruction} (hinstruction : instruction ∈ code) :
    listing.instruction? instruction.address = some instruction :=
  (hindex.instruction?_eq_some_iff hlaid.checked).2 ⟨hinstruction, rfl⟩

theorem ofNat_lt_ofNat {left right : Nat} (hright : right ≤ Address.last.toNat)
    (hlt : left < right) : Address.ofNat left < Address.ofNat right := by
  rw [Address.lt_iff_toNat_lt, Address.toNat_ofNat hright, Address.toNat_ofNat (by omega)]
  exact hlt

theorem ofNat_inj {left right : Nat} (hleft : left ≤ Address.last.toNat)
    (hright : right ≤ Address.last.toNat) (heq : Address.ofNat left = Address.ofNat right) :
    left = right := by
  rw [← Address.toNat_ofNat hleft, heq, Address.toNat_ofNat hright]

/-- Code at consecutive addresses is valid if its jumps stay within it. -/
theorem of_landing
    (haddresses : code.map Instruction.address =
      (List.range' first code.length).map Address.ofNat)
    (hbound : first + code.length ≤ Address.last.toNat)
    (haccepts : ∀ instruction ∈ code, instruction.opcode.accepts instruction.operand = true)
    (hjumps : ∀ jump ∈ code, ∀ target, jump.jumpTarget? = some target →
      ∃ offset, target = .ofNat offset ∧ first ≤ offset ∧ offset < first + code.length) :
    Laid code first where
  addresses := haddresses
  bound := hbound
  checked := by
    refine ⟨?_, ?_, haccepts, ?_⟩
    · rw [← List.pairwise_map (R := (· < ·)), haddresses, List.pairwise_map]
      apply (List.pairwise_lt_range' 1).imp_of_mem
      intro left right _ hright hlt
      have hrange := List.mem_range'_1.1 hright
      exact ofNat_lt_ofNat (by omega) hlt
    · intro instruction hinstruction hlast
      have haddress := List.mem_map_of_mem (f := Instruction.address) hinstruction
      rw [haddresses, hlast] at haddress
      obtain ⟨offset, hoffset, heq⟩ := List.mem_map.1 haddress
      have hrange := List.mem_range'_1.1 hoffset
      have htoNat := Address.toNat_ofNat (show offset ≤ Address.last.toNat by omega)
      rw [heq] at htoNat
      omega
    · intro jump hjump target htarget
      obtain ⟨offset, rfl, hlow, hhigh⟩ := hjumps jump hjump target htarget
      rw [haddresses]
      apply List.mem_map_of_mem
      rw [List.mem_range'_1]
      omega

theorem lt_of_mem_addresses (hlaid : Laid code first) {offset : Nat}
    (hoffset : offset ≤ Address.last.toNat)
    (hmem : Address.ofNat offset ∈ code.map Instruction.address) :
    offset < first + code.length := by
  have hbound := hlaid.bound
  rw [hlaid.addresses] at hmem
  obtain ⟨other, hother, heq⟩ := List.mem_map.1 hmem
  have hrange := List.mem_range'_1.1 hother
  have hsame := ofNat_inj (by omega) hoffset heq
  omega

/-- All offsets of a part of the code stand for addresses. -/
theorem stop_le_last (hlaid : Laid code first) {before part after : List Instruction}
    {start : Nat} (hsplit : code = before ++ (part ++ after))
    (hstart : first + before.length = start) :
    start + part.length + after.length ≤ Address.last.toNat := by
  have hbound := hlaid.bound
  rw [hsplit, List.length_append, List.length_append] at hbound
  omega

/-- A conditional jump does not fork if control does not reach its target from the
instruction before. -/
theorem forkTarget?_of_endsBlock (hlaid : Laid code first) (hindex : listing.Indexes code)
    {jump previous : Instruction} (hjump : jump ∈ code) (hflow : jump.flow = .conditional)
    {offset : Nat} (htarget : jump.jumpTarget? = some (.ofNat (offset + 1)))
    (hprevious : previous ∈ code) (haddress : previous.address = .ofNat offset)
    (hends : previous.flow.endsBlock = true) (hlow : first ≤ offset)
    (hhigh : offset + 1 < first + code.length) :
    Engine.forkTarget? listing jump.address = none := by
  have hparts : Engine.partsArms listing jump (.ofNat (offset + 1)) = false := by
    rw [Engine.partsArms, hflow]
    simp only
    rw [hlaid.previous? hindex hlow hhigh, Option.bind_some, ← haddress,
      hlaid.instruction? hindex hprevious, Option.any_some, hends]
    rfl
  rw [Engine.forkTarget?, hlaid.instruction? hindex hjump]
  simp only [htarget, Option.filter_some, hparts]
  simp

end Laid

namespace Site

variable {code before part after : List Instruction} {first start : Nat} {listing : Listing}

theorem mem_of_mem (hsite : Site code first before part after start)
    {instruction : Instruction} (hinstruction : instruction ∈ part) : instruction ∈ code := by
  rw [hsite.split]
  exact List.mem_append_right _ (List.mem_append_left _ hinstruction)

theorem start_le (hsite : Site code first before part after start) : first ≤ start := by
  rw [← hsite.start_eq]
  exact Nat.le_add_right _ _

theorem stop_le (hsite : Site code first before part after start) :
    start + part.length + after.length = first + code.length := by
  rw [← hsite.start_eq, hsite.split, List.length_append, List.length_append]
  omega

/-- A part of a part, if the jumps of the rest of the part do not lead into it. -/
theorem sub {left middle right : List Instruction}
    (hsite : Site code first before (left ++ (middle ++ right)) after start)
    (hclear : ∀ jump ∈ left ++ right, ∀ target, jump.jumpTarget? = some target →
      target.toNat ≤ start + left.length ∨
        start + left.length + middle.length ≤ target.toNat) :
    Site code first (before ++ left) middle (right ++ after) (start + left.length) where
  split := by
    rw [hsite.split]
    simp only [List.append_assoc]
  start_eq := by
    rw [List.length_append, ← hsite.start_eq]
    omega
  clear := by
    intro jump hjump target htarget
    have hcases : jump ∈ before ++ after ∨ jump ∈ left ++ right := by
      simp only [List.mem_append] at hjump ⊢
      tauto
    rcases hcases with houter | hinner
    · have hle := hsite.clear jump houter target htarget
      rw [List.length_append, List.length_append] at hle
      omega
    · exact hclear jump hinner target htarget

theorem initial {part rest : List Instruction}
    (hsite : Site code first before (part ++ rest) after start)
    (hclear : ∀ jump ∈ rest, ∀ target, jump.jumpTarget? = some target →
      target.toNat ≤ start ∨ start + part.length ≤ target.toNat) :
    Site code first before part (rest ++ after) start := by
  rw [← List.nil_append part, List.append_assoc] at hsite
  have hsub := hsite.sub
  rw [List.append_nil, List.length_nil, Nat.add_zero] at hsub
  exact hsub hclear

theorem final {part rest : List Instruction}
    (hsite : Site code first before (rest ++ part) after start)
    (hclear : ∀ jump ∈ rest, ∀ target, jump.jumpTarget? = some target →
      target.toNat ≤ start + rest.length ∨
        start + rest.length + part.length ≤ target.toNat) :
    Site code first (before ++ rest) part after (start + rest.length) := by
  rw [← List.append_nil part] at hsite
  have hsub := hsite.sub
  rw [List.append_nil, List.nil_append] at hsub
  exact hsub hclear

/-- No jump leads between an instruction and the one behind it. -/
theorem singleton {instruction : Instruction}
    (hsplit : code = before ++ ([instruction] ++ after))
    (hstart : first + before.length = start) :
    Site code first before [instruction] after start where
  split := hsplit
  start_eq := hstart
  clear := by
    intro jump _ target _
    rw [List.length_singleton]
    omega

/-- Jumps to inner addresses of a part come from the part. -/
theorem jumpsTo_eq (hsite : Site code first before part after start)
    (hlaid : Laid code first) (hindex : listing.Indexes code) {offset : Nat}
    (hlow : start < offset) (hhigh : offset < start + part.length) :
    listing.jumpsTo (.ofNat offset) =
      (part.filter fun jump => jump.jumpTarget? = some (.ofNat offset)).map
        Instruction.address := by
  have hbound : offset ≤ Address.last.toNat := by
    have hstop := hsite.stop_le
    have hlast := hlaid.bound
    omega
  have hnone : ∀ jump ∈ before ++ after,
      ¬ decide (jump.jumpTarget? = some (.ofNat offset)) = true := by
    intro jump hjump htarget
    have hclear := hsite.clear jump hjump _ (of_decide_eq_true htarget)
    rw [Address.toNat_ofNat hbound] at hclear
    omega
  rw [hindex.jumpsTo_eq, hsite.split, List.filter_append, List.filter_append,
    List.filter_eq_nil_iff.2 fun jump hjump => hnone jump (List.mem_append_left _ hjump),
    List.filter_eq_nil_iff.2 fun jump hjump => hnone jump (List.mem_append_right _ hjump),
    List.nil_append, List.append_nil]

end Site

namespace Source

variable {code before after : List Instruction} {first start : Nat} {listing : Listing}

/-- The jump past the first arm of a choice. -/
def skipJump (test yes : Source) (start : Nat) : Instruction :=
  .jump (.ofNat (start + test.size)) .brfalse (.ofNat (start + test.size + yes.size + 2))

/-- The jump past the second arm of a choice. -/
def leaveJump (test yes no : Source) (start : Nat) : Instruction :=
  .jump (.ofNat (start + test.size + yes.size + 1)) .br
    (.ofNat (start + test.size + yes.size + no.size + 2))

theorem code_cond (test yes no : Source) (start : Nat) :
    (cond test yes no).code start =
      test.code start ++ skipJump test yes start ::
        (yes.code (start + test.size + 1) ++ leaveJump test yes no start ::
          no.code (start + test.size + yes.size + 2)) := by
  rw [Source.code, skipJump, leaveJump]

/-- The code of a choice is made up of its parts and its two jumps. -/
theorem mem_code_cond {test yes no : Source} {start : Nat} {instruction : Instruction} :
    instruction ∈ (cond test yes no).code start ↔
      instruction ∈ test.code start ∨ instruction = skipJump test yes start ∨
        instruction ∈ yes.code (start + test.size + 1) ∨
        instruction = leaveJump test yes no start ∨
        instruction ∈ no.code (start + test.size + yes.size + 2) := by
  rw [code_cond, List.mem_append, List.mem_cons, List.mem_append, List.mem_cons]

theorem jumpTarget?_skipJump (test yes : Source) (start : Nat) :
    (skipJump test yes start).jumpTarget? =
      some (.ofNat (start + test.size + yes.size + 2)) := rfl

theorem jumpTarget?_leaveJump (test yes no : Source) (start : Nat) :
    (leaveJump test yes no start).jumpTarget? =
      some (.ofNat (start + test.size + yes.size + no.size + 2)) := rfl

section Cond

variable {test yes no : Source} (hlaid : Laid code first)
  (hfits : (cond test yes no).fits = true)
  (hsite : Site code first before ((cond test yes no).code start) after start)

include hlaid hsite

omit hlaid in
theorem skipJump_mem : skipJump test yes start ∈ code :=
  hsite.mem_of_mem (mem_code_cond.2 (Or.inr (Or.inl rfl)))

omit hlaid in
theorem leaveJump_mem : leaveJump test yes no start ∈ code :=
  hsite.mem_of_mem (mem_code_cond.2 (Or.inr (Or.inr (Or.inr (Or.inl rfl)))))

theorem stop_cond_lt : start + test.size + yes.size + no.size + 2 ≤ Address.last.toNat := by
  have hstop := hsite.stop_le
  have hbound := hlaid.bound
  rw [length_code, size] at hstop
  omega

include hfits

/-- Where the jumps in the parts of a choice lead. -/
theorem toNat_target_cond {jump : Instruction} {target : Address}
    (htarget : jump.jumpTarget? = some target) :
    (jump ∈ test.code start → start < target.toNat ∧ target.toNat ≤ start + test.size) ∧
      (jump = skipJump test yes start →
        target.toNat = start + test.size + yes.size + 2) ∧
      (jump ∈ yes.code (start + test.size + 1) → start + test.size + 1 < target.toNat ∧
        target.toNat ≤ start + test.size + 1 + yes.size) ∧
      (jump = leaveJump test yes no start →
        target.toNat = start + test.size + yes.size + no.size + 2) ∧
      (jump ∈ no.code (start + test.size + yes.size + 2) →
        start + test.size + yes.size + 2 < target.toNat) := by
  obtain ⟨htest, hyes, hno⟩ := fits_cond hfits
  have hbound := stop_cond_lt hlaid hsite
  refine ⟨?_, ?_, ?_, ?_, ?_⟩
  · exact fun hjump => (jumpsWithin_code htest _).toNat (by omega) hjump htarget
  · rintro rfl
    rw [jumpTarget?_skipJump, Option.some.injEq] at htarget
    rw [← htarget, Address.toNat_ofNat (by omega)]
  · exact fun hjump => (jumpsWithin_code hyes _).toNat (by omega) hjump htarget
  · rintro rfl
    rw [jumpTarget?_leaveJump, Option.some.injEq] at htarget
    rw [← htarget, Address.toNat_ofNat (by omega)]
  · exact fun hjump => ((jumpsWithin_code hno _).toNat (by omega) hjump htarget).1

/-- The test of a choice together with the jump that it decides. -/
theorem site_skip : Site code first before (test.code start ++ [skipJump test yes start])
    (yes.code (start + test.size + 1) ++ leaveJump test yes no start ::
      no.code (start + test.size + yes.size + 2) ++ after) start := by
  have htargets := @toNat_target_cond _ _ _ _ _ _ _ _ hlaid hfits hsite
  rw [code_cond, List.append_cons] at hsite
  apply hsite.initial
  intro jump hjump target htarget
  obtain ⟨_, _, hyes, hleave, hno⟩ := htargets htarget
  rw [List.length_append, length_code, List.length_singleton]
  rw [List.mem_append, List.mem_cons] at hjump
  rcases hjump with hjump | hjump | hjump
  · have := hyes hjump
    omega
  · have := hleave hjump
    omega
  · have := hno hjump
    omega

theorem site_yes : Site code first (before ++ (test.code start ++ [skipJump test yes start]))
    (yes.code (start + test.size + 1))
    (leaveJump test yes no start :: no.code (start + test.size + yes.size + 2) ++ after)
    (start + test.size + 1) := by
  have htargets := @toNat_target_cond _ _ _ _ _ _ _ _ hlaid hfits hsite
  have hlength : (test.code start ++ [skipJump test yes start]).length = test.size + 1 := by
    rw [List.length_append, length_code, List.length_singleton]
  rw [code_cond, List.append_cons] at hsite
  have hsub := hsite.sub
  rw [hlength, ← Nat.add_assoc] at hsub
  apply hsub
  intro jump hjump target htarget
  obtain ⟨htest, hskip, _, hleave, hno⟩ := htargets htarget
  rw [length_code]
  simp only [List.mem_cons, List.mem_append, List.not_mem_nil, or_false] at hjump
  rcases hjump with (hjump | hjump) | hjump | hjump
  · have := htest hjump
    omega
  · have := hskip hjump
    omega
  · have := hleave hjump
    omega
  · have := hno hjump
    omega

theorem site_no : Site code first
    (before ++ (test.code start ++ skipJump test yes start ::
      (yes.code (start + test.size + 1) ++ [leaveJump test yes no start])))
    (no.code (start + test.size + yes.size + 2)) after
    (start + test.size + yes.size + 2) := by
  have htargets := @toNat_target_cond _ _ _ _ _ _ _ _ hlaid hfits hsite
  have hlength : (test.code start ++ skipJump test yes start ::
      (yes.code (start + test.size + 1) ++ [leaveJump test yes no start])).length =
        test.size + yes.size + 2 := by
    simp only [List.length_append, length_code, List.length_cons, List.length_nil]
    omega
  have hcode : (cond test yes no).code start = (test.code start ++ skipJump test yes start ::
      (yes.code (start + test.size + 1) ++ [leaveJump test yes no start])) ++
        no.code (start + test.size + yes.size + 2) := by
    rw [code_cond]
    simp
  rw [hcode] at hsite
  have hfinal := hsite.final
  rw [hlength, ← Nat.add_assoc, ← Nat.add_assoc] at hfinal
  apply hfinal
  intro jump hjump target htarget
  obtain ⟨htest, hskip, hyes, hleave, _⟩ := htargets htarget
  rw [length_code]
  simp only [List.mem_cons, List.mem_append, List.not_mem_nil, or_false] at hjump
  rcases hjump with hjump | hjump | hjump | hjump
  · have := htest hjump
    omega
  · have := hskip hjump
    omega
  · have := hyes hjump
    omega
  · have := hleave hjump
    omega

omit hfits in
/-- The jump past the first arm does not fork: control does not reach the second arm
from the instruction before it. -/
theorem forkTarget?_skipJump (hindex : listing.Indexes code) :
    Engine.forkTarget? listing (.ofNat (start + test.size)) = none := by
  have hstop := hsite.stop_le
  have hstart := hsite.start_le
  have hpos := no.size_pos
  rw [length_code, size] at hstop
  exact hlaid.forkTarget?_of_endsBlock hindex (skipJump_mem hsite) rfl
    (jumpTarget?_skipJump test yes start) (leaveJump_mem hsite) rfl rfl (by omega) (by omega)

/-- Only the jump past the first arm leads to the second arm. -/
theorem jumpsTo_no (hindex : listing.Indexes code) :
    listing.jumpsTo (.ofNat (start + test.size + yes.size + 2)) =
      [(skipJump test yes start).address] := by
  have hbound := stop_cond_lt hlaid hsite
  have hpos := no.size_pos
  have hnot : ∀ jump, (jump ∈ test.code start ∨ jump ∈ yes.code (start + test.size + 1) ∨
      jump = leaveJump test yes no start ∨
        jump ∈ no.code (start + test.size + yes.size + 2)) →
      ¬ decide (jump.jumpTarget? =
        some (.ofNat (start + test.size + yes.size + 2))) = true := by
    intro jump hjump htarget
    obtain ⟨htest, _, hyes, hleave, hno⟩ :=
      toNat_target_cond hlaid hfits hsite (of_decide_eq_true htarget)
    rw [Address.toNat_ofNat (by omega)] at htest hyes hleave hno
    rcases hjump with hjump | hjump | hjump | hjump
    · have := htest hjump
      omega
    · have := hyes hjump
      omega
    · have := hleave hjump
      omega
    · have := hno hjump
      omega
  rw [hsite.jumpsTo_eq hlaid hindex (by omega) (by rw [length_code, size]; omega), code_cond,
    List.filter_append, List.filter_cons_of_pos (by simp [jumpTarget?_skipJump]),
    List.filter_append,
    List.filter_eq_nil_iff.2 fun jump hjump => hnot jump (Or.inl hjump),
    List.filter_eq_nil_iff.2 fun jump hjump => hnot jump (Or.inr (Or.inl hjump)),
    List.filter_eq_nil_iff.2 fun jump hjump =>
      hnot jump (Or.inr (Or.inr (List.mem_cons.1 hjump)))]
  rfl

/-- The jump past the second arm forks that arm. -/
theorem forkTarget?_leaveJump (hindex : listing.Indexes code) :
    Engine.forkTarget? listing (.ofNat (start + test.size + yes.size + 1)) =
      some (.ofNat (start + test.size + yes.size + no.size + 2)) := by
  have hbound := stop_cond_lt hlaid hsite
  have hpos := no.size_pos
  have hstop := hsite.stop_le
  have hstart := hsite.start_le
  rw [length_code, size] at hstop
  have hnext : listing.next? (leaveJump test yes no start).address =
      some (.ofNat (start + test.size + yes.size + 2)) :=
    hlaid.next? hindex (by omega) (by omega)
  have hforward : (skipJump test yes start).isForwardJump = true :=
    decide_eq_true (Laid.ofNat_lt_ofNat (by omega) (by omega))
  have hleaveForward : (leaveJump test yes no start).isForwardJump = true :=
    decide_eq_true (Laid.ofNat_lt_ofNat (by omega) (by omega))
  have hparts : Engine.partsArms listing (leaveJump test yes no start)
      (.ofNat (start + test.size + yes.size + no.size + 2)) = true := by
    change (listing.next? _).any _ = true
    rw [hnext, Option.any_some, jumpsTo_no hlaid hfits hsite hindex, List.filterMap_cons,
      hlaid.instruction? hindex (skipJump_mem hsite)]
    simp only [List.filterMap_nil, List.find?_cons, hforward]
    rfl
  have hinstruction : listing.instruction? (.ofNat (start + test.size + yes.size + 1)) =
      some (leaveJump test yes no start) := hlaid.instruction? hindex (leaveJump_mem hsite)
  rw [Engine.forkTarget?, hinstruction]
  simp only [hleaveForward, jumpTarget?_leaveJump, Option.filter_some, hparts, if_true]

end Cond

/-! ## Parts of the code of an operation -/

theorem forkTarget?_of_jumpTarget? (hlaid : Laid code first) (hindex : listing.Indexes code)
    {instruction : Instruction} (hinstruction : instruction ∈ code)
    (htarget : instruction.jumpTarget? = none) :
    Engine.forkTarget? listing instruction.address = none := by
  rw [Engine.forkTarget?, hlaid.instruction? hindex hinstruction]
  simp only [Instruction.isForwardJump, htarget]
  rfl

theorem site_head {arg : Source} {rest : List Source} (hlaid : Laid code first)
    (hrest : ∀ other ∈ rest, other.fits = true)
    (hsite : Site code first before (codeAll (arg :: rest) start) after start) :
    Site code first before (arg.code start)
      (codeAll rest (start + arg.size) ++ after) start := by
  have hstop := hsite.stop_le
  have hbound := hlaid.bound
  have hwithin := jumpsWithin_codeAll
    (fun other hother => jumpsWithin_code (hrest other hother)) (start + arg.size)
  rw [codeAll, List.length_append, length_code,
    length_codeAll fun other _ => other.length_code] at hstop
  rw [codeAll] at hsite
  apply hsite.initial
  intro jump hjump target htarget
  have hrange := hwithin.toNat (by omega) hjump htarget
  rw [length_code]
  omega

theorem site_tail {arg : Source} {rest : List Source} (hlaid : Laid code first)
    (harg : arg.fits = true)
    (hsite : Site code first before (codeAll (arg :: rest) start) after start) :
    Site code first (before ++ arg.code start) (codeAll rest (start + arg.size)) after
      (start + arg.size) := by
  have hstop := hsite.stop_le
  have hbound := hlaid.bound
  rw [codeAll, List.length_append, length_code] at hstop
  rw [codeAll] at hsite
  have hfinal := hsite.final
  rw [length_code] at hfinal
  apply hfinal
  intro jump hjump target htarget
  have hrange := (jumpsWithin_code harg start).toNat (by omega) hjump htarget
  omega

/-- The operands of an instruction, together with which they form a part of the
code. -/
theorem site_args {args : List Source} {last : Instruction}
    (hlast : ∀ target, last.jumpTarget? = some target → start + sizeAll args ≤ target.toNat)
    (hsite : Site code first before (codeAll args start ++ [last]) after start) :
    Site code first before (codeAll args start) (last :: after) start := by
  apply hsite.initial
  intro jump hjump target htarget
  right
  rw [List.mem_singleton] at hjump
  rw [hjump] at htarget
  rw [length_codeAll fun other _ => other.length_code]
  exact hlast target htarget

end Source

end StackLift
