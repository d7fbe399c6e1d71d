import StackLift.Json.Value

/-!
# JSON tokens

The characters of a text are grouped into tokens by a machine that takes one
character at a time. Blanks between tokens are dropped. A string token holds the
text that the string denotes, or nothing if its escapes leave half a surrogate
pair behind: such a string is well formed but denotes no text.
-/

namespace StackLift.Json

inductive Token where
  | openArray
  | closeArray
  | openObject
  | closeObject
  | comma
  | colon
  /-- A number or one of the words `null`, `true` and `false`. -/
  | literal (value : Json)
  | string (text : Option String)
  deriving Repr

def isHighSurrogate (point : Nat) : Bool :=
  0xd800 ≤ point && point < 0xdc00

def isLowSurrogate (point : Nat) : Bool :=
  0xdc00 ≤ point && point < 0xe000

def joinSurrogates (high low : Nat) : Char :=
  Char.ofNat (0x10000 + (high - 0xd800) * 0x400 + (low - 0xdc00))

/-- The characters of a list of code points, which is given last point first. Each
half of a surrogate pair needs its other half next to it. -/
def joinPoints : List Nat → List Char → Option (List Char)
  | [], chars => some chars
  | [point], chars =>
    if isHighSurrogate point || isLowSurrogate point then none
    else some (Char.ofNat point :: chars)
  | point :: before :: points, chars =>
    if isLowSurrogate point && isHighSurrogate before then
      joinPoints points (joinSurrogates before point :: chars)
    else if isHighSurrogate point || isLowSurrogate point then none
    else joinPoints (before :: points) (Char.ofNat point :: chars)

/-- How far into a number the machine is. -/
inductive NumberPart where
  | sign
  | zero
  | whole
  | point
  | fraction
  | exponent
  | exponentSign
  | exponentDigits
  deriving DecidableEq, Repr

/-- Where in a token the machine is. -/
inductive Position where
  | between
  /-- In a word of which `rest` is missing. -/
  | word (rest : List Char) (value : Json)
  | number (negative : Bool) (magnitude : Nat) (part : NumberPart)
  /-- In a string with the code points so far, last first. -/
  | text (points : List Nat)
  | escape (points : List Nat)
  /-- In an escape by number of which `missing` digits are to come. -/
  | unicode (points : List Nat) (missing : Nat) (value : Nat)
  deriving Repr

/-- The machine that groups characters: its position, and the tokens so far, last
first. -/
structure Lexer where
  position : Position
  tokens : List Token
  deriving Repr

namespace Lexer

def start : Lexer := ⟨.between, []⟩

def emit (tokens : List Token) (token : Token) : Lexer :=
  ⟨.between, token :: tokens⟩

def digitValue (char : Char) : Nat :=
  char.toNat - '0'.toNat

def hexDigitValue? (char : Char) : Option Nat :=
  if '0' ≤ char ∧ char ≤ '9' then some (char.toNat - '0'.toNat)
  else if 'a' ≤ char ∧ char ≤ 'f' then some (char.toNat - 'a'.toNat + 10)
  else if 'A' ≤ char ∧ char ≤ 'F' then some (char.toNat - 'A'.toNat + 10)
  else none

def stepBetween (tokens : List Token) (char : Char) : Option Lexer :=
  match char with
  | ' ' | '\t' | '\n' | '\r' => some ⟨.between, tokens⟩
  | '[' => some (emit tokens .openArray)
  | ']' => some (emit tokens .closeArray)
  | '\x7b' => some (emit tokens .openObject)
  | '\x7d' => some (emit tokens .closeObject)
  | ',' => some (emit tokens .comma)
  | ':' => some (emit tokens .colon)
  | '"' => some ⟨.text [], tokens⟩
  | 'n' => some ⟨.word ['u', 'l', 'l'] .null, tokens⟩
  | 't' => some ⟨.word ['r', 'u', 'e'] (.bool true), tokens⟩
  | 'f' => some ⟨.word ['a', 'l', 's', 'e'] (.bool false), tokens⟩
  | '-' => some ⟨.number true 0 .sign, tokens⟩
  | '0' => some ⟨.number false 0 .zero, tokens⟩
  | _ => if char.isDigit then some ⟨.number false (digitValue char) .whole, tokens⟩ else none

/-- The value of a number that ends in the given part. A whole number is kept, and
of any other number only that it is one. -/
def numberValue? (negative : Bool) (magnitude : Nat) : NumberPart → Option Json
  | .zero => some (if negative then .unusable else .int 0)
  | .whole => some (.int (if negative then -(magnitude : Int) else magnitude))
  | .fraction | .exponentDigits => some .unusable
  | .sign | .point | .exponent | .exponentSign => none

/-- The part of a number that a character leads to, if the number goes on with it. -/
def nextPart? (part : NumberPart) (char : Char) : Option NumberPart :=
  match part with
  | .sign => if char = '0' then some .zero else if char.isDigit then some .whole else none
  | .zero =>
    if char = '.' then some .point else if char = 'e' ∨ char = 'E' then some .exponent else none
  | .whole =>
    if char.isDigit then some .whole
    else if char = '.' then some .point
    else if char = 'e' ∨ char = 'E' then some .exponent
    else none
  | .point => if char.isDigit then some .fraction else none
  | .fraction =>
    if char.isDigit then some .fraction
    else if char = 'e' ∨ char = 'E' then some .exponent
    else none
  | .exponent =>
    if char.isDigit then some .exponentDigits
    else if char = '+' ∨ char = '-' then some .exponentSign
    else none
  | .exponentSign | .exponentDigits => if char.isDigit then some .exponentDigits else none

/-- A character in a number. A character that does not go on with the number ends
it and is then taken between tokens. -/
def stepNumber (tokens : List Token) (negative : Bool) (magnitude : Nat) (part : NumberPart)
    (char : Char) : Option Lexer :=
  match nextPart? part char with
  | some .whole => some ⟨.number negative (10 * magnitude + digitValue char) .whole, tokens⟩
  | some next => some ⟨.number negative magnitude next, tokens⟩
  | none =>
    match numberValue? negative magnitude part with
    | some value => stepBetween (.literal value :: tokens) char
    | none => none

/-- A character in a string. Control characters have to be escaped. -/
def stepText (tokens : List Token) (points : List Nat) (char : Char) : Option Lexer :=
  if char = '"' then
    some (emit tokens (.string ((joinPoints points []).map String.ofList)))
  else if char = '\\' then some ⟨.escape points, tokens⟩
  else if char.toNat < 0x20 then none
  else some ⟨.text (char.toNat :: points), tokens⟩

def escapedPoint? : Char → Option Nat
  | '"' => some 0x22
  | '\\' => some 0x5c
  | '/' => some 0x2f
  | 'b' => some 0x08
  | 'f' => some 0x0c
  | 'n' => some 0x0a
  | 'r' => some 0x0d
  | 't' => some 0x09
  | _ => none

/-- The machine after one more character, unless no text goes on this way. -/
def step (lexer : Lexer) (char : Char) : Option Lexer :=
  match lexer.position with
  | .between => stepBetween lexer.tokens char
  | .word [] _ => none
  | .word (expected :: rest) value =>
    if char = expected then
      if rest.isEmpty then some (emit lexer.tokens (.literal value))
      else some ⟨.word rest value, lexer.tokens⟩
    else none
  | .number negative magnitude part => stepNumber lexer.tokens negative magnitude part char
  | .text points => stepText lexer.tokens points char
  | .escape points =>
    if char = 'u' then some ⟨.unicode points 4 0, lexer.tokens⟩
    else (escapedPoint? char).map fun point => ⟨.text (point :: points), lexer.tokens⟩
  | .unicode points missing value =>
    (hexDigitValue? char).map fun digit =>
      if missing ≤ 1 then ⟨.text ((16 * value + digit) :: points), lexer.tokens⟩
      else ⟨.unicode points (missing - 1) (16 * value + digit), lexer.tokens⟩

/-- The tokens of a text that ends here, unless it ends within a token. -/
def finish (lexer : Lexer) : Option (List Token) :=
  match lexer.position with
  | .between => some lexer.tokens.reverse
  | .number negative magnitude part =>
    (numberValue? negative magnitude part).map fun value =>
      (.literal value :: lexer.tokens).reverse
  | _ => none

end Lexer

def tokens? (chars : List Char) : Option (List Token) :=
  (chars.foldlM Lexer.step Lexer.start).bind Lexer.finish

end StackLift.Json
