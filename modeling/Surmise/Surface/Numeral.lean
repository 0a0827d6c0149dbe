import Surmise.Tree.Basic

/-!
# Numerals

The number tokens of the language: how far one reaches, and what it stands for.

* `Numeral.scan` gives the longest number at the start of a text;
* `Numeral.integer?` is the value of an integer token, if it fits into 64 signed bits.
-/

namespace Surmise.Numeral

/-- The value of a digit, also of the letters that serve as digits above nine. -/
def digit? (c : Char) : Option Nat :=
  if '0' ≤ c && c ≤ '9' then some (c.toNat - '0'.toNat)
  else if 'a' ≤ c && c ≤ 'f' then some (c.toNat - 'a'.toNat + 10)
  else if 'A' ≤ c && c ≤ 'F' then some (c.toNat - 'A'.toNat + 10)
  else none

def isDigit (radix : Nat) (c : Char) : Bool :=
  match digit? c with
  | some d => d < radix
  | none => false

/-- The value of a digit string read after digits worth `acc`; other characters have no value. -/
def readDigits (radix : Nat) : Nat → List Char → Option Nat
  | acc, [] => some acc
  | acc, c :: rest =>
    match digit? c with
    | some d => if d < radix then readDigits radix (acc * radix + d) rest else none
    | none => none

/-- The value of a non-empty digit string. -/
def digitsValue (radix : Nat) : List Char → Option Nat
  | [] => none
  | digits => readDigits radix 0 digits

/-- The largest integer that has a value. -/
def limit : Nat := 0x7FFFFFFFFFFFFFFF

/-- The digits of an integer token without separators and the old mark of a long integer. -/
def significant (token : List Char) : List Char :=
  ((token.filter (· ≠ '_')).reverse.dropWhile fun c => c == 'l' || c == 'L').reverse

/-- The value of an integer token, in the radix that its first characters name. -/
def magnitude? (token : List Char) : Option Nat :=
  match significant token with
  | '0' :: 'x' :: digits | '0' :: 'X' :: digits => digitsValue 16 digits
  | '0' :: 'o' :: digits | '0' :: 'O' :: digits => digitsValue 8 digits
  | '0' :: 'b' :: digits | '0' :: 'B' :: digits => digitsValue 2 digits
  | digits => digitsValue 10 digits

/-- The value of an integer token, if it is within the limit. -/
def integer? (token : List Char) : Option Int :=
  match magnitude? token with
  | some n => if n ≤ limit then some (n : Int) else none
  | none => none

/-- How many characters a run of digits takes in which a separator stands before a digit. -/
def leadingGroups (radix : Nat) : List Char → Nat
  | '_' :: d :: rest => if isDigit radix d then leadingGroups radix rest + 2 else 0
  | d :: rest => if isDigit radix d then leadingGroups radix rest + 1 else 0
  | [] => 0

/-- How many characters a run of decimal digits takes in which a separator follows a digit. -/
def trailingGroups : List Char → Nat
  | d :: '_' :: rest => if isDigit 10 d then trailingGroups rest + 2 else 0
  | d :: rest => if isDigit 10 d then trailingGroups rest + 1 else 0
  | [] => 0

def exponent : List Char → Nat
  | e :: rest =>
    if e == 'e' || e == 'E' then
      match rest with
      | '+' :: digits | '-' :: digits =>
        if trailingGroups digits = 0 then 0 else trailingGroups digits + 2
      | digits => if trailingGroups digits = 0 then 0 else trailingGroups digits + 1
    else 0
  | [] => 0

/-- The length of the number at the start of a text, and whether it is written as a float. -/
def scanPlain (text : List Char) : Nat × Bool :=
  let whole := trailingGroups text
  match text.drop whole with
  | '.' :: rest =>
    let fraction := trailingGroups rest
    if whole = 0 && fraction = 0 then (0, false)
    else (whole + 1 + fraction + exponent (rest.drop fraction), true)
  | rest => if whole = 0 then (0, false) else (whole + exponent rest, exponent rest ≠ 0)

def hasSuffix (letters : List Char) : List Char → Bool
  | c :: _ => letters.contains c
  | [] => false

/-- The length of the number token at the start of a text (zero if there is none) and its literal. -/
def scan (text : List Char) : Nat × Literal :=
  let radix := match text with
    | '0' :: 'x' :: _ | '0' :: 'X' :: _ => 16
    | '0' :: 'o' :: _ | '0' :: 'O' :: _ => 8
    | '0' :: 'b' :: _ | '0' :: 'B' :: _ => 2
    | _ => 10
  let digits := if radix = 10 then 0 else leadingGroups radix (text.drop 2)
  if digits ≠ 0 then
    let size := digits + 2
    let size := if hasSuffix ['l', 'L'] (text.drop size) then size + 1 else size
    (size, .int (integer? (text.take size)))
  else
    let (size, isFloat) := scanPlain text
    if size = 0 then (0, .float)
    else if hasSuffix ['j', 'J'] (text.drop size) then (size + 1, .complex)
    else if isFloat then (size, .float)
    else
      let size := if hasSuffix ['l', 'L'] (text.drop size) then size + 1 else size
      (size, .int (integer? (text.take size)))

end Surmise.Numeral
