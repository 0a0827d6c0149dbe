import Surmise.Json.Basic

/-!
# Reading JSON

A reader takes a value off the front of a text and gives the rest. What it refuses is no JSON: numbers
with leading zeros, control characters in strings, unknown escapes, anything behind the document.
-/

namespace Surmise.Json

def isSpace (c : Char) : Bool :=
  c == ' ' || c == '\t' || c == '\n' || c == '\r'

def skipSpace (text : List Char) : List Char :=
  text.dropWhile isSpace

def hexDigit? (c : Char) : Option Nat :=
  if '0' ≤ c && c ≤ '9' then some (c.toNat - '0'.toNat)
  else if 'a' ≤ c && c ≤ 'f' then some (c.toNat - 'a'.toNat + 10)
  else if 'A' ≤ c && c ≤ 'F' then some (c.toNat - 'A'.toNat + 10)
  else none

/-- The unit that four hexadecimal digits name. -/
def unit? (a b c d : Char) : Option Nat := do
  return (((← hexDigit? a) * 16 + (← hexDigit? b)) * 16 + (← hexDigit? c)) * 16 + (← hexDigit? d)

def isHighHalf (unit : Nat) : Bool := 0xd800 ≤ unit && unit < 0xdc00

def isLowHalf (unit : Nat) : Bool := 0xdc00 ≤ unit && unit < 0xe000

/-- The character of a unit that stands alone; half of a pair has none. -/
def charOfUnit (unit : Nat) : Option Char :=
  if isHighHalf unit || isLowHalf unit then none else some (Char.ofNat unit)

def charOfPair (high low : Nat) : Char :=
  Char.ofNat (0x10000 + (high - 0xd800) * 0x400 + (low - 0xdc00))

/-- The character of a two-character escape. -/
def shortEscape? : Char → Option Char
  | '"' => some '"'
  | '\\' => some '\\'
  | '/' => some '/'
  | 'b' => some '\x08'
  | 'f' => some '\x0c'
  | 'n' => some '\n'
  | 'r' => some '\r'
  | 't' => some '\t'
  | _ => none

/-- A character in front of what was read behind it. -/
def consChar (c : Option Char) (read : Option (List (Option Char) × List Char)) :
    Option (List (Option Char) × List Char) :=
  read.map fun (chars, rest) => (c :: chars, rest)

/-- The characters of a string up to its closing quote, and what stands behind that. -/
def readChars : List Char → Option (List (Option Char) × List Char)
  | [] => none
  | '"' :: rest => some ([], rest)
  | '\\' :: 'u' :: a :: b :: c :: d :: '\\' :: 'u' :: e :: f :: g :: h :: rest =>
    match unit? a b c d, unit? e f g h with
    | some high, some low =>
      if isHighHalf high && isLowHalf low then consChar (some (charOfPair high low)) (readChars rest)
      else consChar (charOfUnit high) (readChars ('\\' :: 'u' :: e :: f :: g :: h :: rest))
    | some unit, none => consChar (charOfUnit unit) (readChars ('\\' :: 'u' :: e :: f :: g :: h :: rest))
    | none, _ => none
  | '\\' :: 'u' :: a :: b :: c :: d :: rest =>
    match unit? a b c d with
    | some unit => consChar (charOfUnit unit) (readChars rest)
    | none => none
  | '\\' :: c :: rest =>
    match shortEscape? c with
    | some d => consChar (some d) (readChars rest)
    | none => none
  | c :: rest => if c.toNat < 32 || c == '\\' then none else consChar (some c) (readChars rest)
termination_by text => text.length

/-- The text of a string, unless a character of it is missing. -/
def textOf (chars : List (Option Char)) : Option String :=
  (chars.mapM id).map String.ofList

/-- A string behind its opening quote. -/
def readText (text : List Char) : Option (Option String × List Char) :=
  (readChars text).map fun (chars, rest) => (textOf chars, rest)

def takeDigits (text : List Char) : List Char × List Char :=
  (text.takeWhile Char.isDigit, text.dropWhile Char.isDigit)

/-- The part of a number in front of its point: no leading zeros. -/
def readWhole (text : List Char) : Option (List Char × List Char) :=
  match text with
  | '0' :: rest => if (takeDigits rest).1.isEmpty then some (['0'], rest) else none
  | text => if (takeDigits text).1.isEmpty then none else some (takeDigits text)

/-- A point with the digits behind it, if there is a point. -/
def readFraction (text : List Char) : Option (List Char × List Char) :=
  match text with
  | '.' :: rest =>
    if (takeDigits rest).1.isEmpty then none else some ('.' :: (takeDigits rest).1, (takeDigits rest).2)
  | text => some ([], text)

def readExponent (text : List Char) : Option (List Char × List Char) :=
  match text with
  | e :: rest =>
    if e == 'e' || e == 'E' then
      let (sign, rest) := match rest with
        | '+' :: more => (['+'], more)
        | '-' :: more => (['-'], more)
        | more => ([], more)
      if (takeDigits rest).1.isEmpty then none
      else some (e :: sign ++ (takeDigits rest).1, (takeDigits rest).2)
    else some ([], text)
  | [] => some ([], [])

def readNumber (text : List Char) : Option (List Char × List Char) := do
  let (sign, text) := match text with
    | '-' :: rest => (['-'], rest)
    | text => ([], text)
  let (whole, text) ← readWhole text
  let (fraction, text) ← readFraction text
  let (exponent, text) ← readExponent text
  return (sign ++ whole ++ fraction ++ exponent, text)

def readWord (word : String) (text : List Char) : Option (List Char) :=
  if word.toList.isPrefixOf text then some (text.drop word.length) else none

mutual

/-- A value at the front of a text. Values inside it are nested at most `fuel` deep. -/
def readValue (fuel : Nat) (text : List Char) : Option (Json × List Char) :=
  match fuel with
  | 0 => none
  | fuel + 1 =>
    match skipSpace text with
    | '"' :: rest => (readText rest).map fun (text, rest) => (.string text, rest)
    | '[' :: rest =>
      match skipSpace rest with
      | ']' :: rest => some (.array [], rest)
      | rest => (readItems fuel rest).map fun (items, rest) => (.array items, rest)
    | '\x7b' :: rest =>
      match skipSpace rest with
      | '\x7d' :: rest => some (.object [], rest)
      | rest => (readFields fuel rest).map fun (fields, rest) => (.object fields, rest)
    | 'n' :: rest => (readWord "ull" rest).map fun rest => (.null, rest)
    | 't' :: rest => (readWord "rue" rest).map fun rest => (.bool true, rest)
    | 'f' :: rest => (readWord "alse" rest).map fun rest => (.bool false, rest)
    | rest => (readNumber rest).map fun (digits, rest) => (.number (String.ofList digits), rest)

/-- The items of an array and its closing bracket. -/
def readItems (fuel : Nat) (text : List Char) : Option (List Json × List Char) :=
  match fuel with
  | 0 => none
  | fuel + 1 =>
    match readValue fuel text with
    | none => none
    | some (item, rest) =>
      match skipSpace rest with
      | ',' :: rest => (readItems fuel rest).map fun (items, rest) => (item :: items, rest)
      | ']' :: rest => some ([item], rest)
      | _ => none

/-- The fields of an object and its closing brace. -/
def readFields (fuel : Nat) (text : List Char) : Option (List (Option String × Json) × List Char) :=
  match fuel with
  | 0 => none
  | fuel + 1 =>
    match skipSpace text with
    | '"' :: rest =>
      match readText rest with
      | none => none
      | some (name, rest) =>
        match skipSpace rest with
        | ':' :: rest =>
          match readValue fuel rest with
          | none => none
          | some (value, rest) =>
            match skipSpace rest with
            | ',' :: rest =>
              (readFields fuel rest).map fun (fields, rest) => ((name, value) :: fields, rest)
            | '\x7d' :: rest => some ([(name, value)], rest)
            | _ => none
        | _ => none
    | _ => none

end

def read? (text : String) : Option Json :=
  match readValue (text.length + 1) text.toList with
  | some (json, rest) => if (skipSpace rest).isEmpty then some json else none
  | none => none

end Surmise.Json
