import Surmise.Value.Builtin

/-!
# Abstract values

What a name or an expression may hold when the program runs. Uncertainty is a union of alternatives;
the union of none means that nothing is known. Objects of the analysed program (functions, classes,
modules, packages, keyword dictionaries) are referred to by their place in the store.

Tuples, methods, `super` objects and properties get a serial number when they are kept. It tells two of
them apart that were made separately, where their parts no longer do.
-/

namespace Surmise

structure SymbolId where
  index : Nat
  deriving DecidableEq, Repr, Inhabited

structure TableId where
  index : Nat
  deriving DecidableEq, Repr, Inhabited

structure ClassId where
  index : Nat
  deriving DecidableEq, Repr, Inhabited

structure FunctionId where
  index : Nat
  deriving DecidableEq, Repr, Inhabited

structure ModuleId where
  index : Nat
  deriving DecidableEq, Repr, Inhabited

structure PackageId where
  index : Nat
  deriving DecidableEq, Repr, Inhabited

structure KwargsId where
  index : Nat
  deriving DecidableEq, Repr, Inhabited

/-- What a value of an object-relational model is for. -/
inductive OrmRole where
  | manager
  | querySet
  | method (name : String)
  deriving DecidableEq, Repr, Inhabited

/-- A value that a class policy makes up. -/
inductive Synthetic where
  /-- Known by its label; its members are in the store. -/
  | labelled (label : String) (index : Nat)
  | orm (role : OrmRole) (model : ClassId)
  deriving DecidableEq, Repr, Inhabited

inductive Value where
  | null
  | bool (constant : Option Bool)
  | int (constant : Option Int)
  | float
  | complex
  | str (constant : Option String)
  | bytes
  /-- An instance of `object`. -/
  | object
  | list (elem : Value)
  | set (elem : Value)
  | dict (key value : Value)
  | tuple (serial : Option Nat) (items : List Value)
  | generator (elem : Value)
  /-- The dictionary of a `**` parameter. -/
  | kwargs (dict : KwargsId)
  | builtin (b : Builtin)
  /-- A method of a builtin value with its receiver. -/
  | method (serial : Option Nat) (receiver : Value) (name : String)
  /-- A property. -/
  | property (serial : Option Nat) (getter setter deleter : Value)
  /-- A `super` object that searches these bases. -/
  | super (serial : Option Nat) (bases : List Value)
  | external (path : String)
  /-- An instance of an external type. -/
  | externalInstance (path : String)
  | functionRef (id : FunctionId)
  | classRef (id : ClassId)
  | instanceOf (id : ClassId)
  | moduleRef (id : ModuleId)
  | packageRef (id : PackageId)
  | synthetic (s : Synthetic)
  | union (alternatives : List Value)
  deriving Inhabited

namespace Value

/-- Nothing is known about the value. -/
def empty : Value := .union []

def isEmpty : Value → Bool
  | .union [] => true
  | _ => false

/-- The alternatives of a union; any other value is its own alternative. -/
def disjuncts : Value → List Value
  | .union alternatives => alternatives
  | v => [v]

def ofType (t : BuiltinType) : Value := .builtin (.type t)

def ofFunction (f : BuiltinFunction) : Value := .builtin (.function f)

def ofText (text : String) : Value := .str (some text)

def ofBool (b : Bool) : Value := .bool (some b)

/-- The largest integer constant that is kept. -/
def maxInt : Int := 1000

/-- An integer constant; one below zero or above the limit is any integer. -/
def ofInt (n : Int) : Value := if 0 ≤ n ∧ n ≤ maxInt then .int (some n) else .int none

def text? : Value → Option String
  | .str constant => constant
  | _ => none

def int? : Value → Option Int
  | .int constant => constant
  | _ => none

/-- The value behaves like an instance where descriptors are concerned. -/
def isInstance : Value → Bool
  | .classRef _ | .moduleRef _ | .packageRef _ | .external _ | .builtin _ | .union _ => false
  | _ => true

def isCollection : Value → Bool
  | .list _ | .set _ | .dict .. | .tuple .. | .generator _ => true
  | _ => false

end Value

end Surmise
