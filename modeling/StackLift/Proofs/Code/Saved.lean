import StackLift.Code.Module
import StackLift.Json.ReadBack

/-!
# Saved modules

Whatever a module is called and whatever its methods hold, its file is read as the
module that was written.  The values that make up a file are all plain, so nothing is
lost on the way to the text and back, and a text survives the way through its bytes.
Only the version decides whether the module is accepted.
-/

namespace StackLift

namespace Json

theorem itemsArePlain_of_forall {items : List Json} (hitems : ∀ item ∈ items, item.IsPlain) :
    ItemsArePlain items := by
  induction items with
  | nil => exact trivial
  | cons item rest ih =>
      exact ⟨hitems item List.mem_cons_self,
        ih fun other hother => hitems other (List.mem_cons_of_mem _ hother)⟩

theorem isPlain_array_map {α : Type} (toJson : α → Json) (values : List α)
    (hplain : ∀ value, (toJson value).IsPlain) : (Json.array (values.map toJson)).IsPlain := by
  apply itemsArePlain_of_forall
  intro item hitem
  obtain ⟨value, _, rfl⟩ := List.mem_map.1 hitem
  exact hplain value

end Json

/-! ## What is written is plain -/

theorem CallSite.isPlain_toJson (site : CallSite) : site.toJson.IsPlain :=
  ⟨trivial, trivial, trivial, trivial⟩

theorem Operand.isPlain_toJson (operand : Operand) : operand.toJson.IsPlain := by
  cases operand with
  | absent => exact trivial
  | int32 value => exact ⟨trivial, trivial⟩
  | localVar index => exact ⟨trivial, trivial⟩
  | argument index => exact ⟨trivial, trivial⟩
  | target address => exact ⟨trivial, trivial⟩
  | call site => exact ⟨site.isPlain_toJson, trivial⟩

theorem Instruction.isPlain_toJson (instruction : Instruction) : instruction.toJson.IsPlain :=
  ⟨trivial, trivial, instruction.operand.isPlain_toJson, trivial⟩

theorem Method.isPlain_toJson (method : Method) : method.toJson.IsPlain :=
  ⟨trivial, Json.isPlain_array_map _ _ Instruction.isPlain_toJson, trivial⟩

namespace CodeModule

theorem isPlain_toJson (code : CodeModule) : code.toJson.IsPlain :=
  ⟨trivial, trivial, Json.isPlain_array_map _ _ Method.isPlain_toJson, trivial⟩

/-! ## Reading a file -/

/-- The text of a file stands for the module. -/
theorem ofJson?_render (code : CodeModule) :
    (Json.parse? code.render).bind ofJson? = some code := by
  rw [render, Json.parse?_pretty code.toJson code.isPlain_toJson, Option.bind_some,
    ofJson?_toJson]

theorem parse_render (code : CodeModule) :
    parse code.render =
      if code.isCurrent then .ok code else .error (.unsupportedVersion code.version) := by
  simp only [parse, ofJson?_render]

/-- The bytes of a file are those of its text. -/
theorem ofBytes_toBytes (code : CodeModule) : ofBytes code.toBytes = parse code.render := by
  have htext : ∀ text : String, String.fromUTF8? text.toUTF8 = some text := by
    intro text
    rw [String.fromUTF8?, String.toUTF8_eq_toByteArray, dif_pos text.isValidUTF8]
    rfl
  rw [ofBytes, toBytes, htext]

/-- A module of version 1 is read back as it was written, from its text and from its
bytes.  A module of any other version is refused for its version. -/
theorem read_written (code : CodeModule) :
    parse code.render =
        (if code.version = 1 then .ok code else .error (.unsupportedVersion code.version)) ∧
      ofBytes code.toBytes =
        if code.version = 1 then .ok code else .error (.unsupportedVersion code.version) := by
  have hread : parse code.render =
      if code.version = 1 then .ok code else .error (.unsupportedVersion code.version) := by
    simp only [parse_render, isCurrent, currentVersion, beq_iff_eq]
  exact ⟨hread, code.ofBytes_toBytes.trans hread⟩

end CodeModule

end StackLift
