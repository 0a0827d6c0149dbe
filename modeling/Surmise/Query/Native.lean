import Surmise.Value.Bound

/-!
# Instances of builtin types

The members of strings, numbers and collections, and the native values of builtin graph paths.
-/

namespace Surmise

/-- A generic instance of a builtin type. -/
def BuiltinType.anInstance : BuiltinType → Value
  | .object | .slice => .object
  | .type => .ofType .type
  | .noneType => .null
  | .bool => .bool none
  | .int => .int none
  | .float => .float
  | .complex => .complex
  | .str => .str none
  | .bytes => .bytes
  | .list => .listOf .empty
  | .dict => .dictOf .empty .empty
  | .set => .setOf .empty
  | .tuple => .tupleOf []
  | .super => .superOf []
  | .property => .propertyOf .empty .empty .empty

namespace Native

/-- The builtin names that have native values, whatever a graph says of them. -/
def overrides : List (String × Value) :=
  ((BuiltinType.every.filter (· ≠ .noneType)).map fun t => (t.name, .ofType t)) ++
    BuiltinFunction.every.map fun f => (f.name, .ofFunction f)

/-- The name behind `builtins.` in a path. -/
def builtinName? (path : String) : Option String :=
  if "builtins.".toList.isPrefixOf path.toList then
    some (String.ofList (path.toList.drop "builtins.".length))
  else none

/-- The native value of a graph path that names a builtin type or function. -/
def ofPath? (path : String) : Option Value := do
  let name ← builtinName? path
  match BuiltinType.ofName? name with
  | some t => some (.ofType t)
  | none => (BuiltinFunction.ofName? name).map .ofFunction

/-- The native instance of a graph path that names a builtin type. -/
def instanceOfPath? (path : String) : Option Value := do
  match ← builtinName? path with
  | "frozenset" => some (.setOf .empty)
  | "bytearray" => some .bytes
  | name => (BuiltinType.ofName? name).map BuiltinType.anInstance

mutual

def typeOf : Value → Value
  | .null => .ofType .noneType
  | .bool _ => .ofType .bool
  | .int _ => .ofType .int
  | .float => .ofType .float
  | .complex => .ofType .complex
  | .str _ => .ofType .str
  | .bytes => .ofType .bytes
  | .object => .ofType .object
  | .list _ => .ofType .list
  | .set _ => .ofType .set
  | .dict _ _ | .kwargs _ => .ofType .dict
  | .tuple .. => .ofType .tuple
  | .property .. => .ofType .property
  | .super .. => .ofType .super
  | .classRef _ | .external _ | .builtin (.type _) => .ofType .type
  | .instanceOf c => .classRef c
  | .externalInstance path => .external path
  | .union alternatives => .unite (typesOf alternatives)
  | _ => .empty

def typesOf : List Value → List Value
  | [] => []
  | v :: rest => typeOf v :: typesOf rest

end

def strMethods : List String :=
  ["capitalize", "casefold", "center", "count", "encode", "endswith", "expandtabs", "find", "format",
    "format_map", "index", "isalnum", "isalpha", "isascii", "isdecimal", "isdigit", "isidentifier",
    "islower", "isnumeric", "isprintable", "isspace", "istitle", "isupper", "join", "ljust", "lower",
    "lstrip", "partition", "removeprefix", "removesuffix", "replace", "rfind", "rindex", "rjust",
    "rpartition", "rsplit", "rstrip", "split", "splitlines", "startswith", "strip", "swapcase",
    "title", "translate", "upper", "zfill"]

def bytesMethods : List String :=
  ["count", "decode", "endswith", "find", "hex", "join", "lower", "replace", "split", "startswith",
    "strip", "upper"]

def listMethods : List String :=
  ["append", "clear", "copy", "count", "extend", "index", "insert", "pop", "remove", "reverse", "sort"]

def dictMethods : List String :=
  ["clear", "copy", "fromkeys", "get", "items", "keys", "pop", "popitem", "setdefault", "update",
    "values"]

def setMethods : List String :=
  ["add", "clear", "copy", "difference", "difference_update", "discard", "intersection",
    "intersection_update", "isdisjoint", "issubset", "issuperset", "pop", "remove",
    "symmetric_difference", "symmetric_difference_update", "union", "update"]

def tupleMethods : List String := ["count", "index"]

def intMethods : List String :=
  ["as_integer_ratio", "bit_length", "conjugate", "to_bytes", "real", "imag", "numerator",
    "denominator"]

def floatMethods : List String :=
  ["as_integer_ratio", "conjugate", "hex", "is_integer", "real", "imag"]

def complexMethods : List String := ["conjugate", "real", "imag"]

def generatorMethods : List String := ["send", "throw", "close", "__next__", "__iter__"]

def objectMethods : List String :=
  ["__class__", "__doc__", "__init__", "__repr__", "__str__", "__eq__", "__hash__"]

def memberNames : Value → List String
  | .str _ => strMethods
  | .bytes => bytesMethods
  | .list _ => listMethods
  | .dict _ _ | .kwargs _ => dictMethods
  | .set _ => setMethods
  | .tuple .. => tupleMethods
  | .int _ | .bool _ => intMethods
  | .float => floatMethods
  | .complex => complexMethods
  | .generator _ => generatorMethods
  | .object => objectMethods
  | _ => []

/-- The parts of a number, which are data and not methods. -/
def numberPart? (receiver : Value) (name : String) : Option Value :=
  match receiver with
  | .int _ | .bool _ =>
    if ["real", "imag", "numerator", "denominator"].contains name then some (.int none) else none
  | .float | .complex => if ["real", "imag"].contains name then some .float else none
  | _ => none

/-- A member of an instance of a builtin type: data is itself, a method keeps its receiver. -/
def member (receiver : Value) (name : String) : Value :=
  if !(memberNames receiver).contains name then .empty
  else match numberPart? receiver name with
    | some part => part
    | none =>
      if name = "__class__" then typeOf receiver
      else if name = "__doc__" then .str none
      else .methodOf receiver name

end Native

end Surmise
