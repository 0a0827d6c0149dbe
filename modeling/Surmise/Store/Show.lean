import Surmise.Store.Objects
import Surmise.Text.Quoted

/-!
# Values as text

The form of values in traces and answers. Objects of the program are shown by their names, which are in
the store.
-/

namespace Surmise

namespace Store

def showSynthetic (s : Store) : Synthetic → String
  | .labelled label _ => label
  | .orm .manager model => "Manager[" ++ (s.classOf model).name ++ "]"
  | .orm .querySet model => "QuerySet[" ++ (s.classOf model).name ++ "]"
  | .orm (.method name) model => "method QuerySet[" ++ (s.classOf model).name ++ "]." ++ name

mutual

def showValue (s : Store) : Value → String
  | .null => "None"
  | .bool none => "bool"
  | .bool (some true) => "bool(True)"
  | .bool (some false) => "bool(False)"
  | .int none => "int"
  | .int (some n) => "int(" ++ toString n ++ ")"
  | .float => "float"
  | .complex => "complex"
  | .str none => "str"
  | .str (some text) => "str('" ++ text ++ "')"
  | .bytes => "bytes"
  | .object => "object"
  | .list e => "list[" ++ s.showValue e ++ "]"
  | .set e => "set[" ++ s.showValue e ++ "]"
  | .dict k v => "dict[" ++ s.showValue k ++ ", " ++ s.showValue v ++ "]"
  | .tuple _ items => "tuple(" ++ ", ".intercalate (s.showValues items) ++ ")"
  | .generator e => "generator[" ++ s.showValue e ++ "]"
  | .kwargs _ => "kwargs"
  | .builtin b => b.show
  | .method _ receiver name => "method " ++ s.showValue receiver ++ "." ++ name
  | .property .. => "property"
  | .super .. => "super"
  | .external path => path
  | .externalInstance path => "instance " ++ path
  | .functionRef id => "function " ++ (s.function id).name
  | .classRef id => "class " ++ (s.classOf id).name
  | .instanceOf id => "instance " ++ (s.classOf id).name
  | .moduleRef id => "module " ++ (s.module id).name
  | .packageRef id => "package " ++ s.packageName id
  | .synthetic synthetic => s.showSynthetic synthetic
  | .union [] => "?"
  | .union alternatives => " | ".intercalate (s.showValues alternatives)

def showValues (s : Store) : List Value → List String
  | [] => []
  | v :: rest => s.showValue v :: s.showValues rest

end

def describeSymbol (s : Store) (id : SymbolId) : String :=
  let symbol := s.symbol id
  "Symbol \x7b address: " ++ Text.quoted symbol.address.show ++ ", value: " ++
    Text.quoted (s.showValue symbol.value) ++ ", private: " ++
    (if symbol.isPrivate then "true" else "false") ++ " \x7d"

def describeTable (s : Store) (id : TableId) : String :=
  "SymbolTable \x7b address: " ++ Text.quoted (s.table id).address.show ++ ", names: [" ++
    ", ".intercalate ((s.names id).map Text.quoted) ++ "] \x7d"

end Store

end Surmise
