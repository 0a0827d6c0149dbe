import Surmise.Json.Basic

/-!
# Fields of a document

Reading the fields of an object where a missing field, or one of another sort, stands for its default.
-/

namespace Surmise.Json

variable (j : Json)

/-- The value of a field, or `null`. -/
def get (name : String) : Json := (j.field? name).getD .null

def str (name : String) : String := ((j.get name).text?).getD ""

def optStr (name : String) : Option String := (j.get name).text?

def flag (name : String) : Bool := ((j.get name).bool?).getD false

def num (name : String) : Nat := ((j.get name).nat?).getD 0

def items : List Json := (j.array?).getD []

def list (name : String) : List Json := (j.get name).items

def texts (name : String) : List String := (j.list name).map fun t => (t.text?).getD ""

/-- An item of an array, or `null`. -/
def item (i : Nat) : Json := (j.items[i]?).getD .null

def entries : Json → List (String × Json)
  | .object fields => fields.map fun field => (field.1.getD "", field.2)
  | _ => []

def isNull : Json → Bool
  | .null => true
  | _ => false

mutual

/-- How deep arrays and objects are nested in a document. -/
def height : Json → Nat
  | .array items => heightAll items + 1
  | .object fields => heightFields fields + 1
  | _ => 0

def heightAll : List Json → Nat
  | [] => 0
  | item :: rest => max item.height (heightAll rest)

def heightFields : List (Option String × Json) → Nat
  | [] => 0
  | (_, value) :: rest => max value.height (heightFields rest)

end

end Surmise.Json
