import StackLift.Code.Instruction
import StackLift.Proofs.Text.Words

/-!
# Spelling of operations, addresses and operands

Each operation, address and operand has a spelling of its own.  Mnemonics and addresses
are words, and so is an operand, except that the word of a call may be followed by a
remark that nothing is returned.  Hence they can be told from anything behind them that
starts with another mark.
-/

namespace StackLift

namespace Text

/-- Characters of mnemonics, addresses and operands. -/
def isWordChar (char : Char) : Bool :=
  char.isAlphanum || char == '_' || char == '-' || char == '/' || char == '.'

/-- The text consists of characters of words. -/
def IsWord (text : String) : Prop :=
  text.toList.all isWordChar = true

instance (text : String) : Decidable (IsWord text) :=
  inferInstanceAs (Decidable (text.toList.all isWordChar = true))

theorem isWord_iff {text : String} :
    IsWord text ↔ ∀ char ∈ text.toList, isWordChar char = true :=
  List.all_eq_true

theorem IsWord.append {left right : String} (hleft : IsWord left) (hright : IsWord right) :
    IsWord (left ++ right) := by
  rw [isWord_iff, String.toList_append, List.forall_mem_append]
  exact ⟨isWord_iff.1 hleft, isWord_iff.1 hright⟩

/-- A text that begins with a word does not begin with a mark. -/
theorem IsWord.append_ne_cons {word : String} (hword : IsWord word) (hne : word ≠ "")
    {mark : Char} (hmark : isWordChar mark = false) (rest following : List Char) :
    word.toList ++ rest ≠ mark :: following := by
  intro heq
  cases hchars : word.toList with
  | nil => exact hne (String.toList_injective hchars)
  | cons char chars =>
      have hchar := isWord_iff.1 hword char (hchars ▸ List.mem_cons_self)
      rw [hchars] at heq
      rw [(List.cons.inj heq).1, hmark] at hchar
      cases hchar

theorem isWord_hex (width value : Nat) : IsWord (hex width value) := by
  have hdigits : ∀ digit < 16, isWordChar digit.digitChar = true := by decide
  rw [isWord_iff]
  intro char hchar
  obtain ⟨digit, hdigit, rfl⟩ := exists_digit_of_mem_hex hchar
  exact hdigits digit hdigit

theorem isWord_decimal (value : Int) : IsWord (decimal value) := by
  rw [isWord_iff]
  intro char hchar
  rcases isDigit_or_eq_of_mem_decimal hchar with hdigit | rfl
  · simp [isWordChar, Char.isAlphanum, hdigit]
  · rfl

theorem isWord_repr (value : Nat) : IsWord (Nat.repr value) :=
  isWord_decimal (Int.ofNat value)

end Text

open Text (IsWord)

/-! ## Mnemonics -/

namespace Opcode

theorem mnemonic_injective : Function.Injective mnemonic := by
  have hfound : ∀ opcode : Opcode,
      all.find? (fun other => other.mnemonic == opcode.mnemonic) = some opcode := by
    intro opcode
    cases opcode <;> decide
  intro left right heq
  have hleft := hfound left
  rw [heq, hfound right] at hleft
  exact (Option.some.inj hleft).symm

theorem isWord_mnemonic (opcode : Opcode) : IsWord opcode.mnemonic := by
  cases opcode <;> decide

theorem mnemonic_ne_empty (opcode : Opcode) : opcode.mnemonic ≠ "" := by
  cases opcode <;> decide

end Opcode

/-! ## Addresses -/

namespace Address

theorem isWord_text (address : Address) : IsWord address.text := by
  rw [text]
  split
  · decide
  · exact IsWord.append (by decide) (Text.isWord_hex _ _)

theorem text_ne_empty (address : Address) : address.text ≠ "" := by
  rw [text]
  split
  · decide
  · exact fun hempty => absurd (String.append_eq_empty_iff.1 hempty).1 (by decide)

theorem text_injective : Function.Injective text := by
  -- the name of the reserved address has a letter that is no digit
  have hreserved : ∀ value, "IL_MAX" ≠ "IL_" ++ Text.hex 4 value := by
    intro value heq
    have hdigits : "MAX" = Text.hex 4 value := (String.append_right_inj "IL_").1 heq
    have hmem : 'M' ∈ (Text.hex 4 value).toList := by
      rw [← hdigits]
      decide
    have hnone : ∀ digit < 16, 'M' ≠ Nat.digitChar digit := by decide
    obtain ⟨digit, hdigit, hchar⟩ := Text.exists_digit_of_mem_hex hmem
    exact hnone digit hdigit hchar
  intro left right heq
  rw [text, text] at heq
  split at heq
  · next hleft =>
    split at heq
    · next hright => rw [hleft, hright]
    · exact absurd heq (hreserved _)
  · split at heq
    · exact absurd heq.symm (hreserved _)
    · exact toNat_inj.1 (Text.hex_injective 4 ((String.append_right_inj _).1 heq))

/-- A label can be told from the colon behind it. -/
theorem text_append_colon_inj {left right : Address} {rest following : List Char}
    (heq : left.text.toList ++ ':' :: rest = right.text.toList ++ ':' :: following) :
    left = right ∧ rest = following := by
  have hleaves : ∀ behind, Text.Leaves Text.isWordChar (':' :: behind) := by
    simp [Text.Leaves, Text.isWordChar]
  obtain ⟨htexts, hbehind⟩ := Text.append_inj_of_leaves
    (Text.isWord_iff.1 left.isWord_text) (Text.isWord_iff.1 right.isWord_text)
    (hleaves _) (hleaves _) heq
  exact ⟨text_injective (String.toList_injective htexts), (List.cons.inj hbehind).2⟩

end Address

/-! ## Operands -/

namespace Operand

/-- The word of an operand. -/
def word : Operand → String
  | .call site =>
    "M_" ++ Text.hex 8 site.callee.toNat ++ "/" ++ Nat.repr site.args.toNat
  | operand => operand.text

/-- The remark behind the word of a call that returns nothing. -/
def remark : Operand → String
  | .call site => if site.returns then "" else " void"
  | _ => ""

theorem text_eq (operand : Operand) : operand.text = operand.word ++ operand.remark := by
  cases operand with
  | call site => rfl
  | absent => rfl
  | int32 value => exact String.append_empty.symm
  | localVar index => exact String.append_empty.symm
  | argument index => exact String.append_empty.symm
  | target address => exact String.append_empty.symm

theorem isWord_word (operand : Operand) : IsWord operand.word := by
  cases operand with
  | absent => rfl
  | int32 value => exact Text.isWord_decimal _
  | localVar index => exact IsWord.append (by decide) (Text.isWord_repr _)
  | argument index => exact IsWord.append (by decide) (Text.isWord_repr _)
  | target address => exact address.isWord_text
  | call site =>
      exact ((IsWord.append (by decide) (Text.isWord_hex _ _)).append (by decide)).append
        (Text.isWord_repr _)

/-- The letter that tells the kind of an operand, with one digit for all numbers. -/
def kind : Operand → Option Char
  | .absent => none
  | .int32 _ => some '0'
  | .localVar _ => some 'V'
  | .argument _ => some 'A'
  | .target _ => some 'I'
  | .call _ => some 'M'

/-- The kind is seen from how the word begins. -/
theorem kind_eq (operand : Operand) :
    operand.kind = operand.word.toList.head?.map fun char =>
      if char.isDigit || char == '-' then '0' else char := by
  cases operand with
  | absent => rfl
  | int32 value =>
      have hword : (Operand.int32 value).word = Text.decimal value.toInt := rfl
      cases hchars : (Text.decimal value.toInt).toList with
      | nil => exact absurd hchars (Text.toList_decimal_ne_nil _)
      | cons char rest =>
          have hnumber : char.isDigit = true ∨ char = '-' :=
            Text.isDigit_or_eq_of_mem_decimal (hchars ▸ List.mem_cons_self)
          simp [kind, hword, hchars, hnumber]
  | localVar index => simp [kind, word, text]
  | argument index => simp [kind, word, text]
  | target address =>
      by_cases hlast : address = Address.last <;>
        simp [kind, word, text, Address.text, hlast]
  | call site => simp [kind, word]

/-- The word of a call names the callee and the number of arguments. -/
theorem callee_args_of_word {left right : CallSite}
    (hword : (Operand.call left).word = (Operand.call right).word) :
    left.callee = right.callee ∧ left.args = right.args := by
  have hdigits : ∀ value, ∀ char ∈ (Text.hex 8 value).toList, (char != '/') = true := by
    have hnone : ∀ digit < 16, (Nat.digitChar digit != '/') = true := by decide
    intro value char hchar
    obtain ⟨digit, hdigit, rfl⟩ := Text.exists_digit_of_mem_hex hchar
    exact hnone digit hdigit
  have hslash : ∀ rest, Text.Leaves (· != '/') ('/' :: rest) := by
    simp [Text.Leaves]
  have hchars := congrArg String.toList hword
  simp only [word, String.toList_append, List.append_assoc, List.append_cancel_left_eq] at hchars
  obtain ⟨hcallee, hargs⟩ := Text.append_inj_of_leaves (hdigits _) (hdigits _)
    (hslash _) (hslash _) hchars
  constructor
  · exact UInt32.toNat_inj.1 (Text.hex_injective 8 (String.toList_injective hcallee))
  · exact UInt8.toNat_inj.1
      (Nat.repr_inj.1 (String.toList_injective (List.cons.inj hargs).2))

/-- An operand is known from its word and its remark. -/
theorem eq_of_word_of_remark {left right : Operand} (hword : left.word = right.word)
    (hremark : left.remark = right.remark) : left = right := by
  have hkind : left.kind = right.kind := by rw [kind_eq, kind_eq, hword]
  cases left with
  | absent =>
      cases right with
      | absent => rfl
      | _ => simp [kind] at hkind
  | int32 value =>
      cases right with
      | int32 other =>
          have hvalue : value.toInt = other.toInt := Text.decimal_injective hword
          rw [Int32.toInt_inj.1 hvalue]
      | _ => simp [kind] at hkind
  | localVar index =>
      cases right with
      | localVar other =>
          have hindex := Nat.repr_inj.1 ((String.append_right_inj "V_").1 hword)
          rw [UInt16.toNat_inj.1 hindex]
      | _ => simp [kind] at hkind
  | argument index =>
      cases right with
      | argument other =>
          have hindex := Nat.repr_inj.1 ((String.append_right_inj "A_").1 hword)
          rw [UInt16.toNat_inj.1 hindex]
      | _ => simp [kind] at hkind
  | target address =>
      cases right with
      | target other =>
          have haddress : address = other := Address.text_injective hword
          rw [haddress]
      | _ => simp [kind] at hkind
  | call site =>
      cases right with
      | call other =>
          obtain ⟨hcallee, hargs⟩ := callee_args_of_word hword
          have hreturns : site.returns = other.returns := by
            revert hremark
            simp only [remark]
            cases site.returns <;> cases other.returns <;> decide
          cases site
          cases other
          simp_all
      | _ => simp [kind] at hkind

theorem leaves_remark (operand : Operand) :
    Text.Leaves Text.isWordChar operand.remark.toList := by
  cases operand with
  | call site =>
      rw [remark]
      cases site.returns <;> simp [Text.Leaves, Text.isWordChar]
  | _ => simp [remark, Text.Leaves]

theorem text_injective : Function.Injective text := by
  intro left right heq
  rw [text_eq, text_eq] at heq
  have hchars := congrArg String.toList heq
  rw [String.toList_append, String.toList_append] at hchars
  obtain ⟨hword, hremark⟩ := Text.append_inj_of_leaves (Text.isWord_iff.1 left.isWord_word)
    (Text.isWord_iff.1 right.isWord_word) left.leaves_remark right.leaves_remark hchars
  exact eq_of_word_of_remark (String.toList_injective hword) (String.toList_injective hremark)

end Operand

end StackLift
