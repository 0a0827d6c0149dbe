/-!
# JSON documents

A document as it is written: the fields of an object in order and with repetitions, a number by its
digits.
-/

namespace Surmise

inductive Json where
  | null
  | bool (value : Bool)
  /-- A number by its text. -/
  | number (digits : String)
  /-- A string; one that holds half of a surrogate pair has no text. -/
  | string (text : Option String)
  | array (items : List Json)
  | object (fields : List (Option String × Json))
  deriving Inhabited

namespace Json

def ofText (text : String) : Json := .string (some text)

def ofNat (n : Nat) : Json := .number (toString n)

def ofInt (n : Int) : Json := .number (toString n)

def ofFields (fields : List (String × Json)) : Json :=
  .object (fields.map fun field => (some field.1, field.2))

def ofOption {α : Type} (f : α → Json) : Option α → Json
  | some a => f a
  | none => .null

def ofTexts (texts : List String) : Json := .array (texts.map ofText)

def text? : Json → Option String
  | .string text => text
  | _ => none

def array? : Json → Option (List Json)
  | .array items => some items
  | _ => none

def bool? : Json → Option Bool
  | .bool value => some value
  | _ => none

/-- The natural number that a digit string stands for. -/
def natOfDigits? (digits : List Char) : Option Nat :=
  if digits.isEmpty || !digits.all Char.isDigit then none
  else some (digits.foldl (fun n c => 10 * n + (c.toNat - '0'.toNat)) 0)

def nat? : Json → Option Nat
  | .number digits => natOfDigits? digits.toList
  | _ => none

def int? : Json → Option Int
  | .number digits =>
    match digits.toList with
    | '-' :: rest => (natOfDigits? rest).map fun n => -(n : Int)
    | digits => (natOfDigits? digits).map fun n => (n : Int)
  | _ => none

/-- The value of the last field with this name. -/
def field? (name : String) : Json → Option Json
  | .object fields => (fields.reverse.find? fun field => field.1 == some name).map Prod.snd
  | _ => none

end Json

end Surmise
