/-!
# Names and values of settings

What may stand on a line of a settings text: the path of a table or key, which is
one or more names with dots between them, and the value of a key, which is a truth
value, a whole number or a string.
-/

namespace StackLift.Toml

inductive Value where
  | bool (value : Bool)
  | integer (value : Int)
  | string (text : String)
  deriving DecidableEq, Repr

/-- The names of the tables around a key, and the name of the key. -/
abbrev Path := List String

def isBlank (char : Char) : Bool :=
  char = ' ' || char = '\t'

def skipBlanks (chars : List Char) : List Char :=
  chars.dropWhile isBlank

def isPrintable (char : Char) : Bool :=
  char = '\t' || (0x20 ≤ char.toNat && char.toNat != 0x7f)

def isBare (char : Char) : Bool :=
  char.isAlphanum || char = '_' || char = '-'

def digit? (base : Nat) (char : Char) : Option Nat :=
  let value? :=
    if '0' ≤ char ∧ char ≤ '9' then some (char.toNat - '0'.toNat)
    else if 'a' ≤ char ∧ char ≤ 'f' then some (char.toNat - 'a'.toNat + 10)
    else if 'A' ≤ char ∧ char ≤ 'F' then some (char.toNat - 'A'.toNat + 10)
    else none
  value?.filter (· < base)

/-- Value of digits, of which two may be divided by an underscore. -/
def digits? (base : Nat) (value : Nat) : List Char → Option Nat
  | [] => some value
  | '_' :: char :: rest =>
    (digit? base char).bind fun digit => digits? base (base * value + digit) rest
  | char :: rest =>
    (digit? base char).bind fun digit => digits? base (base * value + digit) rest

def natural? (base : Nat) : List Char → Option Nat
  | [] => none
  | char :: rest => (digit? base char).bind fun digit => digits? base digit rest

/-- A number in base ten, which starts with a zero only if it is zero. -/
def unsigned? : List Char → Option Nat
  | ['0'] => some 0
  | '0' :: _ => none
  | chars => natural? 10 chars

/-- A whole number. One in base ten may have a sign. -/
def integer? : List Char → Option Int
  | '0' :: 'x' :: rest => (natural? 16 rest).map Int.ofNat
  | '0' :: 'o' :: rest => (natural? 8 rest).map Int.ofNat
  | '0' :: 'b' :: rest => (natural? 2 rest).map Int.ofNat
  | '+' :: rest => (unsigned? rest).map Int.ofNat
  | '-' :: rest => (unsigned? rest).map fun value => -(value : Int)
  | chars => (unsigned? chars).map Int.ofNat

def fits : Int → Bool
  | .ofNat value => value < 9223372036854775808
  | .negSucc value => value < 9223372036854775808

def codePoint? (digits : List Char) : Option Char :=
  (digits.mapM (digit? 16)).bind fun values =>
    let point := values.foldl (fun value digit => 16 * value + digit) 0
    if point.isValidChar then some (Char.ofNat point) else none

/-- The rest of a string between double quotes, and what follows it. -/
def quoted? (text : List Char) : List Char → Option (String × List Char)
  | [] => none
  | '"' :: rest => some (String.ofList text.reverse, rest)
  | '\\' :: 'b' :: rest => quoted? ('\x08' :: text) rest
  | '\\' :: 't' :: rest => quoted? ('\t' :: text) rest
  | '\\' :: 'n' :: rest => quoted? ('\n' :: text) rest
  | '\\' :: 'f' :: rest => quoted? ('\x0c' :: text) rest
  | '\\' :: 'r' :: rest => quoted? ('\r' :: text) rest
  | '\\' :: '"' :: rest => quoted? ('"' :: text) rest
  | '\\' :: '\\' :: rest => quoted? ('\\' :: text) rest
  | '\\' :: 'u' :: a :: b :: c :: d :: rest =>
    (codePoint? [a, b, c, d]).bind fun char => quoted? (char :: text) rest
  | '\\' :: 'U' :: a :: b :: c :: d :: e :: f :: g :: h :: rest =>
    (codePoint? [a, b, c, d, e, f, g, h]).bind fun char => quoted? (char :: text) rest
  | '\\' :: _ => none
  | char :: rest => if isPrintable char then quoted? (char :: text) rest else none

/-- The rest of a string between single quotes, where nothing is escaped, and what
follows it. -/
def literal? (text : List Char) : List Char → Option (String × List Char)
  | [] => none
  | '\x27' :: rest => some (String.ofList text.reverse, rest)
  | char :: rest => if isPrintable char then literal? (char :: text) rest else none

def name? : List Char → Option (String × List Char)
  | '"' :: rest => quoted? [] rest
  | '\x27' :: rest => literal? [] rest
  | chars =>
    let bare := chars.takeWhile isBare
    if bare.isEmpty then none else some (String.ofList bare, chars.dropWhile isBare)

/-- Names with dots between them, and what follows them. Each name takes at least
one character, so as many rounds as there are characters are enough. -/
def names? : Nat → List Char → Option (Path × List Char)
  | 0, _ => none
  | rounds + 1, chars =>
    match name? (skipBlanks chars) with
    | none => none
    | some (name, rest) =>
      match skipBlanks rest with
      | '.' :: more => (names? rounds more).map fun (path, left) => (name :: path, left)
      | left => some ([name], left)

/-- The number of names that a path of one line has to stay below. -/
def pathLimit : Nat := 80

def path? (chars : List Char) : Option (Path × List Char) :=
  (names? (chars.length + 1) chars).filter fun (path, _) => path.length < pathLimit

def value? (chars : List Char) : Option (Value × List Char) :=
  match chars with
  | '"' :: rest => (quoted? [] rest).map fun (text, left) => (.string text, left)
  | '\x27' :: rest => (literal? [] rest).map fun (text, left) => (.string text, left)
  | _ =>
    let word := chars.takeWhile fun char => isBare char || char = '+'
    let left := chars.drop word.length
    if word = "true".toList then some (.bool true, left)
    else if word = "false".toList then some (.bool false, left)
    else ((integer? word).filter fits).map fun value => (.integer value, left)

end StackLift.Toml
