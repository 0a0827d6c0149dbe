/-!
# TOML documents

What a document says, without how it is written. A table keeps its entries in the order in which their
keys first appear.
-/

namespace Surmise

inductive Toml where
  | boolean (value : Bool)
  | integer (value : Int)
  /-- A number with a fraction or an exponent, an infinity or no number; nothing asks which. -/
  | float
  | text (value : String)
  /-- A date, a time of day or both, by its normal form. -/
  | moment (written : String)
  | array (items : List Toml)
  | table (entries : List (String × Toml))
  deriving Inhabited

namespace Toml

def boolean? : Toml → Option Bool
  | .boolean value => some value
  | _ => none

/-- An integer that is not negative. -/
def natural? : Toml → Option Nat
  | .integer (.ofNat n) => some n
  | _ => none

def text? : Toml → Option String
  | .text value => some value
  | _ => none

/-- A string, or a date or time as it is written. -/
def written? : Toml → Option String
  | .text value => some value
  | .moment value => some value
  | _ => none

def items? : Toml → Option (List Toml)
  | .array items => some items
  | _ => none

def get? (key : String) : Toml → Option Toml
  | .table entries => entries.lookup key
  | _ => none

end Toml

end Surmise
