import Std.Data.String.ToInt
import Mathlib.Logic.Function.Basic
import StackLift.Code.Address

/-!
# Words and lists in running text

A word can be told from what follows it if what follows starts with a character that no
word has.  Numbers are told apart by their digits, filled up with zeros or not.  A list
with commas between its items and a mark at its end can be read item by item if each
item can be told from what follows it.
-/

namespace StackLift.Text

/-! ## Words -/

/-- The text is over or goes on with a character outside the class. -/
def Leaves (keep : Char → Bool) (rest : List Char) : Prop :=
  ∀ char ∈ rest.head?, keep char = false

/-- Two texts begin with the same word and go on in the same way, if both words consist
of characters of a class that is left behind them. -/
theorem append_inj_of_leaves {keep : Char → Bool} {left right rest other : List Char}
    (hleft : ∀ char ∈ left, keep char = true) (hright : ∀ char ∈ right, keep char = true)
    (hrest : Leaves keep rest) (hother : Leaves keep other)
    (heq : left ++ rest = right ++ other) : left = right ∧ rest = other := by
  induction left generalizing right with
  | nil =>
      cases right with
      | nil => exact ⟨rfl, heq⟩
      | cons char right =>
          have hkept := hright char List.mem_cons_self
          rw [hrest char (by rw [← List.nil_append rest, heq]; rfl)] at hkept
          cases hkept
  | cons char left ih =>
      cases right with
      | nil =>
          have hkept := hleft char List.mem_cons_self
          rw [hother char (by rw [← List.nil_append other, ← heq]; rfl)] at hkept
          cases hkept
      | cons first right =>
          obtain ⟨rfl, htail⟩ := List.cons.inj heq
          obtain ⟨rfl, hrest⟩ := ih (fun other hmem => hleft other (List.mem_cons_of_mem _ hmem))
            (fun other hmem => hright other (List.mem_cons_of_mem _ hmem)) htail
          exact ⟨rfl, hrest⟩

/-! ## Numbers -/

/-- Value of a digit in lower-case base sixteen. -/
def hexDigitValue (char : Char) : Nat :=
  if char.isDigit then char.toNat - '0'.toNat else char.toNat - 'a'.toNat + 10

/-- The number that digits in base sixteen stand for. -/
def hexValue (digits : List Char) : Nat :=
  digits.foldl (fun value char => 16 * value + hexDigitValue char) 0

theorem hexDigitValue_digitChar {digit : Nat} (hdigit : digit < 16) :
    hexDigitValue digit.digitChar = digit := by
  revert digit
  decide

theorem hexValue_toDigits (value : Nat) : hexValue (Nat.toDigits 16 value) = value := by
  induction value using Nat.strongRecOn with
  | ind value ih =>
      rw [Nat.toDigits_eq_if (by decide)]
      split
      · next hsmall => simp [hexValue, hexDigitValue_digitChar hsmall]
      · next hlarge =>
        have hquotient := ih (value / 16) (by omega)
        rw [hexValue] at hquotient
        rw [hexValue, List.foldl_append, hquotient, List.foldl_cons, List.foldl_nil,
          hexDigitValue_digitChar (Nat.mod_lt _ (by decide))]
        exact Nat.div_add_mod value 16

/-- Zeros on the left do not change a number. -/
theorem hexValue_zeroFill (width : Nat) (digits : List Char) :
    hexValue (zeroFill width digits) = hexValue digits := by
  have hzeros : ∀ count, (List.replicate count '0').foldl
      (fun value char => 16 * value + hexDigitValue char) 0 = 0 := by
    intro count
    induction count with
    | zero => rfl
    | succ count ih => exact ih
  rw [hexValue, zeroFill, List.foldl_append, hzeros, hexValue]

theorem hex_injective (width : Nat) : Function.Injective (hex width) := by
  intro left right heq
  have hvalues := congrArg (fun text => hexValue text.toList) heq
  simpa only [hex, String.toList_ofList, hexValue_zeroFill, hexValue_toDigits] using hvalues

theorem decimal_injective : Function.Injective decimal := by
  have hrepr : ∀ value, decimal value = Int.repr value := by
    intro value
    cases value with
    | ofNat value => rfl
    | negSucc value => simp [decimal, Int.repr, Int.negSucc_lt_zero]
  intro left right heq
  rw [hrepr, hrepr] at heq
  exact Int.repr_inj.1 heq

theorem exists_digit_of_mem_toDigits {base value : Nat} (hbase : 1 < base) {char : Char}
    (hchar : char ∈ Nat.toDigits base value) : ∃ digit < base, char = digit.digitChar := by
  induction value using Nat.strongRecOn with
  | ind value ih =>
      rw [Nat.toDigits_eq_if hbase] at hchar
      split at hchar
      · next hsmall => exact ⟨value, hsmall, List.mem_singleton.1 hchar⟩
      · next hlarge =>
        rcases List.mem_append.1 hchar with hquotient | hlast
        · exact ih (value / base) (Nat.div_lt_self (by omega) hbase) hquotient
        · exact ⟨value % base, Nat.mod_lt _ (by omega), List.mem_singleton.1 hlast⟩

/-- Digits in base sixteen, zeros on the left included, stand for less than sixteen. -/
theorem exists_digit_of_mem_hex {width value : Nat} {char : Char}
    (hchar : char ∈ (hex width value).toList) : ∃ digit < 16, char = digit.digitChar := by
  rw [hex, String.toList_ofList, zeroFill, List.mem_append] at hchar
  rcases hchar with hzero | hdigit
  · exact ⟨0, by decide, List.eq_of_mem_replicate hzero⟩
  · exact exists_digit_of_mem_toDigits (by decide) hdigit

/-- Characters of a number in base ten. -/
theorem isDigit_or_eq_of_mem_decimal {value : Int} {char : Char}
    (hchar : char ∈ (decimal value).toList) : char.isDigit = true ∨ char = '-' := by
  rw [decimal] at hchar
  split at hchar
  · rw [String.toList_append, List.mem_append, Nat.toList_repr] at hchar
    rcases hchar with hsign | hdigit
    · exact Or.inr (by simpa using hsign)
    · exact Or.inl (Nat.isDigit_of_mem_toDigits (by decide) (by decide) hdigit)
  · rw [Nat.toList_repr] at hchar
    exact Or.inl (Nat.isDigit_of_mem_toDigits (by decide) (by decide) hchar)

theorem toList_decimal_ne_nil (value : Int) : (decimal value).toList ≠ [] := by
  rw [decimal]
  split <;> simp [Nat.toList_repr]

/-! ## Lists -/

/-- A list is its first item and then each further item behind a comma and a blank. -/
theorem toList_commaSeparated (first : String) (rest : List String) :
    (commaSeparated (first :: rest)).toList =
      first.toList ++ rest.flatMap fun text => ',' :: ' ' :: text.toList := by
  induction rest generalizing first with
  | nil => simp [commaSeparated]
  | cons next rest ih =>
      have hnext := ih next
      rw [commaSeparated] at hnext ⊢
      rw [String.intercalate_cons_cons, String.toList_append, String.toList_append, hnext]
      simp

section Lists

variable {α β : Type} {spell : α → String} {view : α → β} {Ends : List Char → Prop} {mark : Char}
variable {left right : List α} {rest following : List Char}

/-- Items behind commas can be told apart up to the mark that ends their list, if each
can be told from a comma or the mark behind it. -/
theorem items_append_inj (hmark : mark ≠ ',') (hcomma : ∀ rest, Ends (',' :: rest))
    (hends : ∀ rest, Ends (mark :: rest))
    (hitem : ∀ item ∈ left, ∀ other rest following, Ends rest → Ends following →
      (spell item).toList ++ rest = (spell other).toList ++ following →
        view item = view other ∧ rest = following)
    (heq : left.flatMap (fun item => ',' :: ' ' :: (spell item).toList) ++ mark :: rest =
      right.flatMap (fun item => ',' :: ' ' :: (spell item).toList) ++ mark :: following) :
    left.map view = right.map view ∧ rest = following := by
  have hbehind : ∀ (items : List α) (rest : List Char),
      Ends (items.flatMap (fun item => ',' :: ' ' :: (spell item).toList) ++ mark :: rest) := by
    intro items rest
    cases items with
    | nil => exact hends rest
    | cons item items => exact hcomma _
  induction left generalizing right with
  | nil =>
      cases right with
      | nil => exact ⟨rfl, (List.cons.inj heq).2⟩
      | cons item right => exact absurd (List.cons.inj heq).1 hmark
  | cons item left ih =>
      cases right with
      | nil => exact absurd (List.cons.inj heq).1.symm hmark
      | cons other right =>
          simp only [List.flatMap_cons, List.cons_append, List.append_assoc, List.cons.injEq,
            true_and] at heq
          obtain ⟨hview, hrest⟩ := hitem item List.mem_cons_self other _ _
            (hbehind left rest) (hbehind right following) heq
          obtain ⟨hviews, hfollowing⟩ :=
            ih (fun next hnext => hitem next (List.mem_cons_of_mem _ hnext)) hrest
          exact ⟨by rw [List.map_cons, List.map_cons, hview, hviews], hfollowing⟩

/-- Two lists that end with the same mark have the same items, if no item begins with
the mark and each can be told from a comma or the mark behind it. -/
theorem commaSeparated_append_inj (hmark : mark ≠ ',') (hcomma : ∀ rest, Ends (',' :: rest))
    (hends : ∀ rest, Ends (mark :: rest))
    (hbegins : ∀ item rest following, (spell item).toList ++ rest ≠ mark :: following)
    (hitem : ∀ item ∈ left, ∀ other rest following, Ends rest → Ends following →
      (spell item).toList ++ rest = (spell other).toList ++ following →
        view item = view other ∧ rest = following)
    (heq : (commaSeparated (left.map spell)).toList ++ mark :: rest =
      (commaSeparated (right.map spell)).toList ++ mark :: following) :
    left.map view = right.map view ∧ rest = following := by
  have hitems : ∀ item items, ',' :: ' ' :: (commaSeparated ((item :: items).map spell)).toList =
      (item :: items).flatMap fun item => ',' :: ' ' :: (spell item).toList := by
    intro item items
    rw [List.map_cons, toList_commaSeparated, List.flatMap_map, List.flatMap_cons]
    rfl
  cases left with
  | nil =>
      cases right with
      | nil => exact ⟨rfl, (List.cons.inj heq).2⟩
      | cons other right =>
          rw [List.map_cons, toList_commaSeparated, List.append_assoc] at heq
          exact absurd heq.symm (hbegins other _ _)
  | cons item left =>
      cases right with
      | nil =>
          rw [List.map_cons, toList_commaSeparated, List.append_assoc] at heq
          exact absurd heq (hbegins item _ _)
      | cons other right =>
          apply items_append_inj hmark hcomma hends hitem
          rw [← hitems, ← hitems]
          exact congrArg (fun chars => ',' :: ' ' :: chars) heq

end Lists

end StackLift.Text
