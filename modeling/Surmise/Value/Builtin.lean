/-!
# Builtin types and functions

The builtin names whose results depend on their arguments, so that element types flow through them.
-/

namespace Surmise

inductive BuiltinType where
  | object | type | noneType | bool | int | float | complex | str | bytes | list | dict | set | tuple
  | super | property | slice
  deriving DecidableEq, Repr, Inhabited

inductive BuiltinFunction where
  | len | range | abs | dir | globals | vars | enumerate | zip | sorted | reversed | iter | next | min
  | max | sum | map | filter | getattr | isinstance | issubclass | eval | divmod | pow | repr | hash
  | id | callable | hasattr | round | any | all | chr | ord | input
  deriving DecidableEq, Repr, Inhabited

inductive Builtin where
  | type (t : BuiltinType)
  | function (f : BuiltinFunction)
  deriving DecidableEq, Repr, Inhabited

namespace BuiltinType

def name : BuiltinType → String
  | .object => "object"
  | .type => "type"
  | .noneType => "NoneType"
  | .bool => "bool"
  | .int => "int"
  | .float => "float"
  | .complex => "complex"
  | .str => "str"
  | .bytes => "bytes"
  | .list => "list"
  | .dict => "dict"
  | .set => "set"
  | .tuple => "tuple"
  | .super => "super"
  | .property => "property"
  | .slice => "slice"

def every : List BuiltinType :=
  [.object, .type, .noneType, .bool, .int, .float, .complex, .str, .bytes, .list, .dict, .set, .tuple,
    .super, .property, .slice]

def ofName? (name : String) : Option BuiltinType :=
  every.find? fun t => t.name == name

end BuiltinType

namespace BuiltinFunction

def name : BuiltinFunction → String
  | .len => "len"
  | .range => "range"
  | .abs => "abs"
  | .dir => "dir"
  | .globals => "globals"
  | .vars => "vars"
  | .enumerate => "enumerate"
  | .zip => "zip"
  | .sorted => "sorted"
  | .reversed => "reversed"
  | .iter => "iter"
  | .next => "next"
  | .min => "min"
  | .max => "max"
  | .sum => "sum"
  | .map => "map"
  | .filter => "filter"
  | .getattr => "getattr"
  | .isinstance => "isinstance"
  | .issubclass => "issubclass"
  | .eval => "eval"
  | .divmod => "divmod"
  | .pow => "pow"
  | .repr => "repr"
  | .hash => "hash"
  | .id => "id"
  | .callable => "callable"
  | .hasattr => "hasattr"
  | .round => "round"
  | .any => "any"
  | .all => "all"
  | .chr => "chr"
  | .ord => "ord"
  | .input => "input"

def every : List BuiltinFunction :=
  [.len, .range, .abs, .dir, .globals, .vars, .enumerate, .zip, .sorted, .reversed, .iter, .next, .min,
    .max, .sum, .map, .filter, .getattr, .isinstance, .issubclass, .eval, .divmod, .pow, .repr, .hash,
    .id, .callable, .hasattr, .round, .any, .all, .chr, .ord, .input]

def ofName? (name : String) : Option BuiltinFunction :=
  every.find? fun f => f.name == name

end BuiltinFunction

def Builtin.show : Builtin → String
  | .type t => "builtins." ++ t.name
  | .function f => "builtins." ++ f.name

end Surmise
