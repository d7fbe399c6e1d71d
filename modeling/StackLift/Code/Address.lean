/-!
# Addresses

An address is the position of an instruction in the instruction stream of its
method. The greatest address is reserved: no instruction has it, so it can mark
the end of everything.

Addresses are written in lower-case base sixteen, filled up with zeros on the
left. Other numbers in messages and listings are written that way or in base ten.
-/

namespace StackLift

namespace Text

def zeroFill (width : Nat) (digits : List Char) : List Char :=
  List.replicate (width - digits.length) '0' ++ digits

/-- Lower-case base sixteen, at least `width` digits. -/
def hex (width : Nat) (value : Nat) : String :=
  String.ofList (zeroFill width (Nat.toDigits 16 value))

def decimal (value : Int) : String :=
  if value < 0 then "-" ++ Nat.repr value.natAbs else Nat.repr value.natAbs

def commaSeparated (texts : List String) : String :=
  String.intercalate ", " texts

end Text

/-- Position of an instruction in the instruction stream of a method. -/
structure Address where
  offset : UInt32
  deriving DecidableEq, Repr, Inhabited

namespace Address

def zero : Address := ⟨0⟩

/-- The greatest address, which no instruction may have. -/
def last : Address := ⟨4294967295⟩

def toNat (address : Address) : Nat :=
  address.offset.toNat

/-- `IL_` and the offset in base sixteen, or `IL_MAX` for the reserved address. -/
def text (address : Address) : String :=
  if address = last then "IL_MAX" else "IL_" ++ Text.hex 4 address.toNat

instance : LE Address := ⟨fun left right => left.offset ≤ right.offset⟩

instance : LT Address := ⟨fun left right => left.offset < right.offset⟩

instance (left right : Address) : Decidable (left ≤ right) :=
  inferInstanceAs (Decidable (left.offset ≤ right.offset))

instance (left right : Address) : Decidable (left < right) :=
  inferInstanceAs (Decidable (left.offset < right.offset))

instance : Max Address := maxOfLe

instance : Ord Address := ⟨fun left right => compare left.offset right.offset⟩

/-! Addresses are ordered as the numbers they stand for. -/

theorem le_iff_toNat_le {left right : Address} : left ≤ right ↔ left.toNat ≤ right.toNat :=
  UInt32.le_iff_toNat_le

theorem lt_iff_toNat_lt {left right : Address} : left < right ↔ left.toNat < right.toNat :=
  UInt32.lt_iff_toNat_lt

theorem toNat_inj {left right : Address} : left.toNat = right.toNat ↔ left = right := by
  cases left
  cases right
  simp [toNat, UInt32.toNat_inj]

instance : Std.IsLinearOrder Address where
  le_refl _ := le_iff_toNat_le.2 (Nat.le_refl _)
  le_trans left middle right hleft hright := by
    rw [le_iff_toNat_le] at *
    exact Nat.le_trans hleft hright
  le_antisymm left right hleft hright := by
    rw [le_iff_toNat_le] at *
    exact toNat_inj.1 (Nat.le_antisymm hleft hright)
  le_total left right := by
    rw [le_iff_toNat_le, le_iff_toNat_le]
    exact Nat.le_total _ _

instance : Std.LawfulOrderLT Address where
  lt_iff left right := by
    rw [lt_iff_toNat_lt, le_iff_toNat_le, le_iff_toNat_le]
    omega

theorem max_def (left right : Address) : max left right = if left ≤ right then right else left :=
  rfl

instance : Std.LawfulOrderMax Address where
  max_eq_or left right := by
    rw [max_def]
    split
    · exact Or.inr rfl
    · exact Or.inl rfl
  max_le_iff left right bound := by
    rw [max_def]
    split
    · next h =>
      rw [le_iff_toNat_le] at *
      simp only [le_iff_toNat_le]
      omega
    · next h =>
      rw [le_iff_toNat_le] at *
      simp only [le_iff_toNat_le]
      omega

theorem compare_eq (left right : Address) :
    compare left right = compare left.offset right.offset := rfl

instance : Std.TransOrd Address where
  eq_swap := by
    intro left right
    rw [compare_eq, compare_eq]
    exact Std.OrientedOrd.eq_swap
  isLE_trans := by
    intro left middle right hleft hright
    rw [compare_eq] at *
    exact Std.TransOrd.isLE_trans hleft hright

instance : Std.LawfulEqOrd Address where
  compare_self := by
    intro address
    rw [compare_eq]
    exact Std.ReflOrd.compare_self
  eq_of_compare := by
    intro left right heq
    have hoffset : left.offset = right.offset := Std.LawfulEqOrd.eq_of_compare heq
    cases left
    cases right
    simp_all

end Address

end StackLift
