import StackLift.Json.Reader

/-!
# Reading what was written

The text of a value is read as that value again. The characters are followed
through the machine that groups them into tokens, and the tokens through the
machine that puts them together.
-/

namespace StackLift.Json

mutual

/-- Whether all parts of a value denote something, so that writing it loses nothing. -/
def IsPlain : Json → Prop
  | .unusable => False
  | .array items => ItemsArePlain items
  | .object members => MembersArePlain members
  | .null | .bool _ | .int _ | .string _ => True

/-- Whether all elements of an array are plain. -/
def ItemsArePlain : List Json → Prop
  | [] => True
  | item :: items => IsPlain item ∧ ItemsArePlain items

/-- Whether the values of all members of an object are plain. -/
def MembersArePlain : List (String × Json) → Prop
  | [] => True
  | (_, value) :: members => IsPlain value ∧ MembersArePlain members

end

mutual

/-- The tokens of a value. -/
def toTokens : Json → List Token
  | .array items => .openArray :: itemTokens items ++ [.closeArray]
  | .object members => .openObject :: memberTokens members ++ [.closeObject]
  | .string text => [.string (some text)]
  | json => [.literal json]

/-- The tokens of the elements of an array, with the commas between them. -/
def itemTokens : List Json → List Token
  | [] => []
  | [item] => toTokens item
  | item :: items => toTokens item ++ .comma :: itemTokens items

/-- The tokens of the members of an object, with the commas between them. -/
def memberTokens : List (String × Json) → List Token
  | [] => []
  | [(name, value)] => .string (some name) :: .colon :: toTokens value
  | (name, value) :: members =>
    .string (some name) :: .colon :: toTokens value ++ .comma :: memberTokens members

end

/-! ## Characters to tokens -/

namespace Lexer

/-- The machine after some characters. -/
def run (lexer : Lexer) (chars : List Char) : Option Lexer :=
  chars.foldlM step lexer

@[simp]
theorem run_nil (lexer : Lexer) : lexer.run [] = some lexer := rfl

@[simp]
theorem run_cons (lexer : Lexer) (char : Char) (chars : List Char) :
    lexer.run (char :: chars) = (lexer.step char).bind fun next => next.run chars := rfl

theorem run_append (lexer : Lexer) (left right : List Char) :
    lexer.run (left ++ right) = (lexer.run left).bind fun next => next.run right := by
  simp only [run, List.foldlM_append]
  rfl

/-- Whether the machine has read the given tokens, last first, and no more, but for
the end of a number that only the next character shows. -/
inductive Settled : Lexer → List Token → Prop where
  | between (tokens : List Token) : Settled ⟨.between, tokens⟩ tokens
  | number {negative : Bool} {magnitude : Nat} {part : NumberPart} {value : Json}
      (tokens : List Token) (hvalue : numberValue? negative magnitude part = some value) :
      Settled ⟨.number negative magnitude part, tokens⟩ (.literal value :: tokens)

theorem Settled.finish {lexer : Lexer} {tokens : List Token} (hsettled : lexer.Settled tokens) :
    lexer.finish = some tokens.reverse := by
  cases hsettled with
  | between => rfl
  | number tokens hvalue => simp [Lexer.finish, hvalue]

/-- Whether a character cannot stand in a number. -/
def endsNumber (char : Char) : Bool :=
  !char.isDigit && char != '.' && char != 'e' && char != 'E' && char != '+' && char != '-'

theorem nextPart?_of_endsNumber {char : Char} (hends : endsNumber char = true)
    (part : NumberPart) : nextPart? part char = none := by
  simp [endsNumber] at hends
  have hzero : char ≠ '0' := by
    intro heq
    subst heq
    simp at hends
  cases part <;> simp [nextPart?, hends, hzero]

/-- A character that cannot stand in a number is taken as if between tokens. -/
theorem Settled.step {lexer : Lexer} {tokens : List Token} (hsettled : lexer.Settled tokens)
    {char : Char} (hends : endsNumber char = true) :
    lexer.step char = stepBetween tokens char := by
  cases hsettled with
  | between => rfl
  | number tokens hvalue =>
    simp [Lexer.step, stepNumber, nextPart?_of_endsNumber hends, hvalue]

/-! ### Blanks -/

theorem run_margin (tokens : List Token) (level : Nat) (rest : List Char) :
    run ⟨.between, tokens⟩ (margin level ++ rest) = run ⟨.between, tokens⟩ rest := by
  simp only [margin]
  generalize 2 * level = count
  induction count with
  | zero => simp
  | succ count ih => simpa [List.replicate_succ, step, stepBetween] using ih

/-! ### Numbers -/

theorem digit_facts {digit : Nat} (hdigit : digit < 10) :
    digit.digitChar.isDigit = true ∧ digitValue digit.digitChar = digit := by
  have hcases : digit = 0 ∨ digit = 1 ∨ digit = 2 ∨ digit = 3 ∨ digit = 4 ∨ digit = 5 ∨
      digit = 6 ∨ digit = 7 ∨ digit = 8 ∨ digit = 9 := by omega
  rcases hcases with h | h | h | h | h | h | h | h | h | h <;> subst h <;> decide

/-- The part of a number after the digits of a whole number. -/
def wholePart (value : Nat) : NumberPart :=
  if value = 0 then .zero else .whole

/-- Digits are gathered into the number they stand for, once the first is. -/
theorem run_toDigits {lexer : Lexer} {negative : Bool} {tokens : List Token}
    (hfirst : ∀ digit < 10,
      lexer.step digit.digitChar = some ⟨.number negative digit (wholePart digit), tokens⟩)
    (value : Nat) :
    lexer.run (Nat.toDigits 10 value) =
      some ⟨.number negative value (wholePart value), tokens⟩ := by
  induction value using Nat.strongRecOn with
  | ind value ih =>
    by_cases hsmall : value < 10
    · rw [Nat.toDigits_of_lt_base hsmall]
      simp [hfirst value hsmall]
    · have hquotient : value / 10 < value := by omega
      have hdigit : value % 10 < 10 := by omega
      obtain ⟨hisDigit, hvalue⟩ := digit_facts hdigit
      have hpart : wholePart (value / 10) = .whole := if_neg (by omega)
      have hpart' : wholePart value = .whole := if_neg (by omega)
      rw [Nat.toDigits_of_base_le (by omega) (by omega), run_append, ih _ hquotient, hpart, hpart']
      have hsum : 10 * (value / 10) + value % 10 = value := by omega
      simp [step, stepNumber, nextPart?, hisDigit, hvalue, hsum]

theorem step_between_digit (tokens : List Token) (digit : Nat) (hdigit : digit < 10) :
    step ⟨.between, tokens⟩ digit.digitChar =
      some ⟨.number false digit (wholePart digit), tokens⟩ := by
  have hcases : digit = 0 ∨ digit = 1 ∨ digit = 2 ∨ digit = 3 ∨ digit = 4 ∨ digit = 5 ∨
      digit = 6 ∨ digit = 7 ∨ digit = 8 ∨ digit = 9 := by omega
  rcases hcases with h | h | h | h | h | h | h | h | h | h <;> subst h <;> rfl

theorem step_sign_digit (tokens : List Token) (digit : Nat) (hdigit : digit < 10) :
    step ⟨.number true 0 .sign, tokens⟩ digit.digitChar =
      some ⟨.number true digit (wholePart digit), tokens⟩ := by
  have hcases : digit = 0 ∨ digit = 1 ∨ digit = 2 ∨ digit = 3 ∨ digit = 4 ∨ digit = 5 ∨
      digit = 6 ∨ digit = 7 ∨ digit = 8 ∨ digit = 9 := by omega
  rcases hcases with h | h | h | h | h | h | h | h | h | h <;> subst h <;> rfl

theorem run_decimal (tokens : List Token) (value : Int) :
    ∃ lexer, run ⟨.between, tokens⟩ (Text.decimal value).toList = some lexer ∧
      lexer.Settled (.literal (.int value) :: tokens) := by
  by_cases hnegative : value < 0
  · have hwhole : wholePart value.natAbs = .whole := if_neg (by omega)
    refine ⟨⟨.number true value.natAbs (wholePart value.natAbs), tokens⟩, ?_, ?_⟩
    · simp only [Text.decimal, hnegative, if_true, String.toList_append, Nat.toList_repr]
      exact run_toDigits (step_sign_digit tokens) value.natAbs
    · apply Settled.number
      have hvalue : -(value.natAbs : Int) = value := by omega
      simp only [hwhole, numberValue?, if_true, hvalue]
  · refine ⟨⟨.number false value.natAbs (wholePart value.natAbs), tokens⟩, ?_, ?_⟩
    · simp only [Text.decimal, hnegative, if_false, Nat.toList_repr]
      exact run_toDigits (step_between_digit tokens) value.natAbs
    · apply Settled.number
      by_cases hzero : value = 0
      · subst hzero
        rfl
      · have hwhole : wholePart value.natAbs = .whole := if_neg (by omega)
        have hvalue : (value.natAbs : Int) = value := by omega
        simp only [hwhole, numberValue?, Bool.false_eq_true, if_false, hvalue]

/-! ### Strings -/

theorem not_surrogate (char : Char) :
    isHighSurrogate char.toNat = false ∧ isLowSurrogate char.toNat = false := by
  have hvalid := char.valid
  simp only [UInt32.isValidChar, Nat.isValidChar] at hvalid
  simp only [isHighSurrogate, isLowSurrogate, Char.toNat, Bool.and_eq_false_iff,
    decide_eq_false_iff_not]
  omega

/-- The code points of characters are joined to these characters. -/
theorem joinPoints_map_toNat (chars after : List Char) :
    joinPoints (chars.map Char.toNat) after = some (chars.reverse ++ after) := by
  induction chars generalizing after with
  | nil => rfl
  | cons char chars ih =>
    obtain ⟨hhigh, hlow⟩ := not_surrogate char
    cases chars with
    | nil => simp [joinPoints, hhigh, hlow]
    | cons before chars =>
      have htail := ih (char :: after)
      simp only [List.map_cons] at htail ⊢
      rw [joinPoints]
      simp [hhigh, hlow, htail]

theorem run_escape_control (points : List Nat) (tokens : List Token) :
    ∀ code < 0x20,
      run ⟨.text points, tokens⟩ (escape (Char.ofNat code)) =
        some ⟨.text (code :: points), tokens⟩ := by
  intro code hcode
  iterate 32
    rcases code with _ | code
    · rfl
  omega

/-- A character is read from the way it stands in a string. -/
theorem run_escape (points : List Nat) (tokens : List Token) (char : Char) :
    run ⟨.text points, tokens⟩ (escape char) = some ⟨.text (char.toNat :: points), tokens⟩ := by
  by_cases hcontrol : char.toNat < 0x20
  · have hread := run_escape_control points tokens char.toNat hcontrol
    rwa [Char.ofNat_toNat] at hread
  · by_cases hquote : char = '"'
    · subst hquote
      rfl
    · by_cases hbackslash : char = '\\'
      · subst hbackslash
        rfl
      · have hescape : escape char = [char] := by
          unfold escape
          split <;> simp_all
        simp [hescape, step, stepText, hquote, hbackslash, hcontrol]

theorem run_escapes (points : List Nat) (tokens : List Token) (chars : List Char) :
    run ⟨.text points, tokens⟩ (chars.flatMap escape) =
      some ⟨.text ((chars.map Char.toNat).reverse ++ points), tokens⟩ := by
  induction chars generalizing points with
  | nil => rfl
  | cons char chars ih =>
    rw [List.flatMap_cons, run_append, run_escape]
    simp [ih]

/-- A quoted string is read as one token. -/
theorem run_quote (tokens : List Token) (text : String) :
    run ⟨.between, tokens⟩ (quote text) = some ⟨.between, .string (some text) :: tokens⟩ := by
  have hopen : step ⟨.between, tokens⟩ '"' = some ⟨.text [], tokens⟩ := rfl
  rw [quote, List.cons_append, run_cons, hopen, Option.bind_some, run_append, run_escapes,
    List.append_nil]
  have hjoin := joinPoints_map_toNat text.toList.reverse []
  rw [List.map_reverse, List.reverse_reverse, List.append_nil] at hjoin
  simp [step, stepText, hjoin, emit]

/-! ### Values -/

/-- Whether characters are read as the given tokens, wherever they start. -/
def ReadsAs (chars : List Char) (written : List Token) : Prop :=
  ∀ tokens, ∃ lexer, run ⟨.between, tokens⟩ chars = some lexer ∧
    lexer.Settled (written.reverse ++ tokens)

namespace ReadsAs

theorem nil : ReadsAs [] [] := fun tokens => ⟨_, rfl, .between tokens⟩

/-- A blank adds nothing. -/
theorem blank (char : Char) {chars : List Char} {written : List Token}
    (hblank : ∀ tokens, stepBetween tokens char = some ⟨.between, tokens⟩)
    (hreads : ReadsAs chars written) : ReadsAs (char :: chars) written := by
  intro tokens
  obtain ⟨lexer, hrun, hsettled⟩ := hreads tokens
  refine ⟨lexer, ?_, hsettled⟩
  simp [step, hblank, hrun]

/-- A character that is a token. -/
theorem mark (char : Char) {token : Token} {chars : List Char} {written : List Token}
    (hmark : ∀ tokens, stepBetween tokens char = some (emit tokens token))
    (hreads : ReadsAs chars written) : ReadsAs (char :: chars) (token :: written) := by
  intro tokens
  obtain ⟨lexer, hrun, hsettled⟩ := hreads (token :: tokens)
  refine ⟨lexer, ?_, ?_⟩
  · simp [step, hmark, emit, hrun]
  · simpa using hsettled

theorem margin {chars : List Char} {written : List Token} (level : Nat)
    (hreads : ReadsAs chars written) : ReadsAs (Json.margin level ++ chars) written := by
  intro tokens
  rw [run_margin]
  exact hreads tokens

theorem quote (text : String) : ReadsAs (Json.quote text) [.string (some text)] :=
  fun tokens => ⟨_, run_quote tokens text, .between _⟩

theorem decimal (value : Int) : ReadsAs (Text.decimal value).toList [.literal (.int value)] :=
  fun tokens => run_decimal tokens value

/-- Two texts are read one after the other if the second cannot go on with a number
at the end of the first. -/
theorem append {left right : List Char} {first second : List Token} {char : Char}
    (hleft : ReadsAs left first) (hright : ReadsAs (char :: right) second)
    (hends : endsNumber char = true) :
    ReadsAs (left ++ char :: right) (first ++ second) := by
  intro tokens
  obtain ⟨middle, hmiddle, hsettled⟩ := hleft tokens
  obtain ⟨lexer, hrun, hend⟩ := hright (first.reverse ++ tokens)
  refine ⟨lexer, ?_, ?_⟩
  · rw [run_append, hmiddle, Option.bind_some, ← hrun, run_cons, run_cons, hsettled.step hends]
    rfl
  · simpa using hend

/-- The end of an array or object, on a line of its own. -/
theorem closing (char : Char) {token : Token} (level : Nat)
    (hmark : ∀ tokens, stepBetween tokens char = some (emit tokens token)) :
    ReadsAs ('\n' :: (Json.margin level ++ [char])) [token] :=
  blank _ (fun _ => rfl) (margin level (mark char hmark nil))

end ReadsAs

mutual

theorem readsAs_prettyChars (level : Nat) :
    (json : Json) → json.IsPlain → ReadsAs (prettyChars level json) json.toTokens
  | .null, _ => fun _ => ⟨_, rfl, .between _⟩
  | .bool true, _ => fun _ => ⟨_, rfl, .between _⟩
  | .bool false, _ => fun _ => ⟨_, rfl, .between _⟩
  | .int value, _ => by
    simpa [prettyChars, toTokens] using ReadsAs.decimal value
  | .string text, _ => by
    simpa [prettyChars, toTokens] using ReadsAs.quote text
  | .array [], _ => fun _ => ⟨_, rfl, .between _⟩
  | .array (item :: items), hplain => by
    have hitems := readsAs_prettyItems (level + 1) (item :: items) hplain
    have hclose := ReadsAs.closing ']' level (fun _ => rfl)
    have hbody := hitems.append hclose rfl
    simpa [prettyChars, toTokens] using
      ReadsAs.mark '[' (fun _ => rfl) (ReadsAs.blank '\n' (fun _ => rfl) hbody)
  | .object [], _ => fun _ => ⟨_, rfl, .between _⟩
  | .object (member :: members), hplain => by
    have hmembers := readsAs_prettyMembers (level + 1) (member :: members) hplain
    have hclose := ReadsAs.closing '\x7d' level (fun _ => rfl)
    have hbody := hmembers.append hclose rfl
    simpa [prettyChars, toTokens] using
      ReadsAs.mark '\x7b' (fun _ => rfl) (ReadsAs.blank '\n' (fun _ => rfl) hbody)

theorem readsAs_prettyItems (level : Nat) :
    (items : List Json) → ItemsArePlain items →
      ReadsAs (prettyItems level items) (itemTokens items)
  | [], _ => ReadsAs.nil
  | [item], hplain => by
    simpa [prettyItems, itemTokens] using
      ReadsAs.margin level (readsAs_prettyChars level item hplain.1)
  | item :: next :: items, hplain => by
    have hitem := ReadsAs.margin level (readsAs_prettyChars level item hplain.1)
    have hitems := readsAs_prettyItems level (next :: items) hplain.2
    have hrest := ReadsAs.mark ',' (fun _ => rfl)
      (ReadsAs.blank '\n' (fun _ => rfl) hitems)
    simpa [prettyItems, itemTokens] using hitem.append hrest rfl

theorem readsAs_prettyMembers (level : Nat) :
    (members : List (String × Json)) → MembersArePlain members →
      ReadsAs (prettyMembers level members) (memberTokens members)
  | [], _ => ReadsAs.nil
  | [(name, value)], hplain => by
    have hvalue := ReadsAs.mark ':' (fun _ => rfl)
      (ReadsAs.blank ' ' (fun _ => rfl) (readsAs_prettyChars level value hplain.1))
    simpa [prettyMembers, memberTokens] using
      ReadsAs.margin level ((ReadsAs.quote name).append hvalue rfl)
  | (name, value) :: next :: members, hplain => by
    have hmembers := readsAs_prettyMembers level (next :: members) hplain.2
    have hrest := ReadsAs.mark ',' (fun _ => rfl)
      (ReadsAs.blank '\n' (fun _ => rfl) hmembers)
    have hvalue := ReadsAs.mark ':' (fun _ => rfl) (ReadsAs.blank ' '
      (fun _ => rfl) ((readsAs_prettyChars level value hplain.1).append hrest rfl))
    simpa [prettyMembers, memberTokens] using
      ReadsAs.margin level ((ReadsAs.quote name).append hvalue rfl)

end

end Lexer

theorem tokens?_prettyChars (json : Json) (hplain : json.IsPlain) :
    tokens? (prettyChars 0 json) = some json.toTokens := by
  obtain ⟨lexer, hrun, hsettled⟩ := Lexer.readsAs_prettyChars 0 json hplain []
  change ((Lexer.run Lexer.start (prettyChars 0 json)).bind Lexer.finish) = _
  rw [Lexer.start, hrun, Option.bind_some, hsettled.finish]
  simp

/-! ## Tokens to values -/

namespace Reader

/-- The machine after some tokens. -/
def run (reader : Reader) (tokens : List Token) : Option Reader :=
  tokens.foldlM step reader

@[simp]
theorem run_nil (reader : Reader) : reader.run [] = some reader := rfl

@[simp]
theorem run_cons (reader : Reader) (token : Token) (tokens : List Token) :
    reader.run (token :: tokens) = (reader.step token).bind fun next => next.run tokens := rfl

theorem run_append (reader : Reader) (left right : List Token) :
    reader.run (left ++ right) = (reader.run left).bind fun next => next.run right := by
  simp only [run, List.foldlM_append]
  rfl

/-- The members of an open object, last first. -/
def named (members : List (String × Json)) : List (Option String × Json) :=
  members.map fun member => (some member.1, member.2)

theorem ofMembers_named (members : List (String × Json)) :
    ofMembers (named members).reverse = .object members := by
  have hread : ∀ members : List (String × Json),
      ((named members).mapM fun member => member.1.map fun name => (name, member.2)) =
        some members := by
    intro members
    induction members with
    | nil => rfl
    | cons member members ih =>
      simp only [named, List.map_cons, List.mapM_cons] at ih ⊢
      rw [ih]
      rfl
  simp [ofMembers, hread]

theorem place_array (value : Json) (items : List Json) (frames : List Frame) :
    place value (.array items :: frames) = some ⟨.separator, .array (value :: items) :: frames⟩ :=
  rfl

theorem place_member (value : Json) (members : List (Option String × Json))
    (name : Option String) (frames : List Frame) :
    place value (.member members name :: frames) =
      some ⟨.separator, .object ((name, value) :: members) :: frames⟩ :=
  rfl

theorem run_closeArray (items : List Json) (frames : List Frame) :
    run ⟨.separator, .array items :: frames⟩ [.closeArray] =
      place (.array items.reverse) frames := by
  simp [step, stepClose]

theorem run_closeObject (members : List (String × Json)) (frames : List Frame) :
    run ⟨.separator, .object (named members).reverse :: frames⟩ [.closeObject] =
      place (.object members) frames := by
  simp [step, stepClose, ofMembers_named]

theorem named_concat (members : List (String × Json)) (name : String) (value : Json) :
    (named (members ++ [(name, value)])).reverse =
      (some name, value) :: (named members).reverse := by
  simp [named]

theorem run_comma_array (items : List Json) (frames : List Frame) (tokens : List Token) :
    run ⟨.separator, .array items :: frames⟩ (.comma :: tokens) =
      run ⟨.value, .array items :: frames⟩ tokens :=
  rfl

theorem run_comma_object (members : List (Option String × Json)) (frames : List Frame)
    (tokens : List Token) :
    run ⟨.separator, .object members :: frames⟩ (.comma :: tokens) =
      run ⟨.name, .object members :: frames⟩ tokens :=
  rfl

theorem run_name (members : List (Option String × Json)) (name : Option String)
    (frames : List Frame) (tokens : List Token) :
    run ⟨.name, .object members :: frames⟩ (.string name :: .colon :: tokens) =
      run ⟨.value, .member members name :: frames⟩ tokens :=
  rfl

theorem run_name_first (members : List (Option String × Json)) (name : Option String)
    (frames : List Frame) (tokens : List Token) :
    run ⟨.nameOrClose, .object members :: frames⟩ (.string name :: .colon :: tokens) =
      run ⟨.value, .member members name :: frames⟩ tokens :=
  rfl

mutual

/-- The tokens of a value are read as that value, also first in an array. -/
theorem run_toTokens (frames : List Frame) :
    (json : Json) → json.IsPlain →
      run ⟨.value, frames⟩ json.toTokens = place json frames ∧
        run ⟨.valueOrClose, frames⟩ json.toTokens = place json frames
  | .null, _ | .bool _, _ | .int _, _ | .string _, _ => by
    simp [toTokens, step, stepValue, ofText]
  | .array [], _ => by
    simp [toTokens, itemTokens, step, stepValue, stepClose]
  | .array (item :: items), hplain => by
    have hitems := (run_itemTokens [] frames (item :: items) (by simp) hplain).2
    simp only [toTokens, List.cons_append, run_cons, step, stepValue, Option.bind_some]
    exact ⟨hitems, hitems⟩
  | .object [], _ => by
    simp [toTokens, memberTokens, step, stepValue, stepClose, ofMembers]
  | .object (member :: members), hplain => by
    have hmembers := (run_memberTokens [] frames (member :: members) (by simp) hplain).2
    simp only [toTokens, List.cons_append, run_cons, step, stepValue, Option.bind_some]
    exact ⟨hmembers, hmembers⟩

/-- The tokens of the elements that are left complete an array. -/
theorem run_itemTokens (done : List Json) (frames : List Frame) :
    (items : List Json) → items ≠ [] → ItemsArePlain items →
      run ⟨.value, .array done :: frames⟩ (itemTokens items ++ [.closeArray]) =
          place (.array (done.reverse ++ items)) frames ∧
        run ⟨.valueOrClose, .array done :: frames⟩ (itemTokens items ++ [.closeArray]) =
          place (.array (done.reverse ++ items)) frames
  | [], hne, _ => absurd rfl hne
  | [item], _, hplain => by
    obtain ⟨hvalue, hfirst⟩ := run_toTokens (.array done :: frames) item hplain.1
    simp only [itemTokens, run_append, hvalue, hfirst, place_array, Option.bind_some,
      run_closeArray, List.reverse_cons, and_self]
  | item :: next :: items, _, hplain => by
    obtain ⟨hvalue, hfirst⟩ := run_toTokens (.array done :: frames) item hplain.1
    have hitems := (run_itemTokens (item :: done) frames (next :: items) (by simp) hplain.2).1
    simp only [itemTokens, List.append_assoc, List.cons_append, run_append _ item.toTokens, hvalue,
      hfirst, place_array, Option.bind_some, run_comma_array]
    simpa using hitems

/-- The tokens of the members that are left complete an object. -/
theorem run_memberTokens (done : List (String × Json)) (frames : List Frame) :
    (members : List (String × Json)) → members ≠ [] → MembersArePlain members →
      run ⟨.name, .object (named done).reverse :: frames⟩
            (memberTokens members ++ [.closeObject]) =
          place (.object (done ++ members)) frames ∧
        run ⟨.nameOrClose, .object (named done).reverse :: frames⟩
            (memberTokens members ++ [.closeObject]) =
          place (.object (done ++ members)) frames
  | [], hne, _ => absurd rfl hne
  | [(name, value)], _, hplain => by
    have hvalue :=
      (run_toTokens (.member (named done).reverse (some name) :: frames) value hplain.1).1
    simp only [memberTokens, List.cons_append, run_name, run_name_first, run_append, hvalue,
      place_member, Option.bind_some, ← named_concat, run_closeObject, and_self]
  | (name, value) :: next :: members, _, hplain => by
    have hvalue :=
      (run_toTokens (.member (named done).reverse (some name) :: frames) value hplain.1).1
    have hmembers :=
      (run_memberTokens (done ++ [(name, value)]) frames (next :: members) (by simp) hplain.2).1
    simp only [memberTokens, List.append_assoc, List.cons_append, run_name, run_name_first,
      run_append _ value.toTokens, hvalue, place_member, Option.bind_some, run_comma_object,
      ← named_concat, and_self]
    simpa using hmembers

end

end Reader

theorem ofTokens?_toTokens (json : Json) (hplain : json.IsPlain) :
    ofTokens? json.toTokens = some json := by
  change ((Reader.run Reader.start json.toTokens).bind Reader.finish) = _
  rw [Reader.start, (Reader.run_toTokens [] json hplain).1]
  rfl

/-- The text of a value is read as that value. -/
theorem parse?_pretty (json : Json) (hplain : json.IsPlain) : parse? json.pretty = some json := by
  simp [parse?, pretty, tokens?_prettyChars json hplain, ofTokens?_toTokens json hplain]

end StackLift.Json
