import Surmise.Json.Basic
import Surmise.Tree.Children
import Surmise.Tree.Show

/-!
# Trees as documents

The JSON form of a tree. A node is an object whose field `k` names its sort; every field is written,
also an empty one. The numbers of nodes are left out.
-/

namespace Surmise

namespace TreeWriter

def ofKind (kind : String) (fields : List (String × Json)) : Json :=
  .ofFields (("k", .ofText kind) :: fields)

def importedItem (item : ImportAlias) : Json :=
  .ofFields [("path", .ofTexts item.path), ("alias", .ofOption .ofText item.newName)]

def literal : Literal → Json
  | .int value => ofKind "Int" [("value", .ofOption .ofInt value)]
  | .float => ofKind "Float" []
  | .complex => ofKind "Complex" []
  | .str text => ofKind "Str" [("value", .ofText text)]
  | .bytes => ofKind "Bytes" []
  | .bool value => ofKind "Bool" [("value", .bool value)]
  | .null => ofKind "None" []
  | .ellipsis => ofKind "Ellipsis" []

/-- A node as an object; `one` writes its children. -/
def object (one : Node → Json) (node : Node) : Json :=
  let opt := Json.ofOption one
  let many (nodes : List Node) : Json := .array (nodes.map one)
  let keywords (ks : List (Keyword Node)) : Json :=
    .array (ks.map fun k => .ofFields [("name", .ofText k.name), ("value", one k.value)])
  let varParam (p : VarParameter Node) : Json :=
    .ofFields [("name", .ofText p.name), ("annotation", opt p.hint)]
  let params (p : Parameters Node) : Json :=
    .ofFields [
      ("params", .array (p.params.map fun q => .ofFields [("name", .ofText q.name),
        ("default", opt q.default), ("annotation", opt q.hint), ("keyword_only", .bool q.keywordOnly)])),
      ("vararg", Json.ofOption varParam p.vararg), ("kwarg", Json.ofOption varParam p.kwarg)]
  let clauses (cs : List (Clause Node)) : Json :=
    .array (cs.map fun c => .ofFields [("target", one c.target), ("iter", one c.iter), ("ifs", many c.conditions)])
  match node with
  | .module body => ofKind "Module" [("body", many body)]
  | .functionDef _ name ps body decorators returns isAsync line =>
    ofKind "FunctionDef" [("name", .ofText name), ("params", params ps), ("body", many body),
      ("decorators", many decorators), ("returns", opt returns), ("is_async", .bool isAsync), ("line", .ofNat line)]
  | .classDef _ name bases ks body decorators line =>
    ofKind "ClassDef" [("name", .ofText name), ("bases", many bases), ("keywords", keywords ks),
      ("body", many body), ("decorators", many decorators), ("line", .ofNat line)]
  | .assign targets value => ofKind "Assignment" [("targets", many targets), ("value", one value)]
  | .annotated target hint value =>
    ofKind "AnnotatedAssignment" [("target", one target), ("annotation", one hint), ("value", opt value)]
  | .augmented target op value =>
    ofKind "AugAssignment" [("target", one target), ("op", .ofText op.label), ("value", one value)]
  | .returnStmt value => ofKind "Return" [("value", opt value)]
  | .importStmt names => ofKind "Import" [("names", .array (names.map importedItem))]
  | .importFrom dots source names wildcard =>
    ofKind "ImportFrom" [("dots", .ofNat dots), ("module", Json.ofTexts source),
      ("names", .array (names.map importedItem)), ("wildcard", .bool wildcard)]
  | .ifStmt branches otherwise =>
    ofKind "If" [("branches", .array (branches.map fun b => .ofFields [("test", one b.test), ("body", many b.body)])),
      ("else_body", many otherwise)]
  | .forStmt target iter body otherwise =>
    ofKind "For" [("target", one target), ("iter", one iter), ("body", many body), ("else_body", many otherwise)]
  | .whileStmt test body otherwise =>
    ofKind "While" [("test", one test), ("body", many body), ("else_body", many otherwise)]
  | .tryStmt body handlers otherwise final =>
    ofKind "Try" [("body", many body),
      ("handlers", .array (handlers.map fun h => .ofFields
        [("type", opt h.kind), ("name", opt h.name), ("body", many h.body)])),
      ("else_body", many otherwise), ("finally_body", many final)]
  | .withStmt items body =>
    ofKind "With" [("items", .array (items.map fun i => .ofFields
        [("context", one i.context), ("target", opt i.target)])),
      ("body", many body)]
  | .assertStmt test message => ofKind "Assert" [("test", one test), ("msg", opt message)]
  | .raiseStmt exception cause => ofKind "Raise" [("exc", opt exception), ("cause", opt cause)]
  | .deleteStmt targets => ofKind "Delete" [("targets", many targets)]
  | .globalStmt names => ofKind "Global" [("names", Json.ofTexts names)]
  | .nonlocalStmt names => ofKind "Nonlocal" [("names", Json.ofTexts names)]
  | .passStmt => ofKind "Pass" []
  | .breakStmt => ofKind "Break" []
  | .continueStmt => ofKind "Continue" []
  | .bad pieces => ofKind "Bad" [("approximation", many pieces)]
  | .ident text => ofKind "Identifier" [("name", .ofText text)]
  | .literal value => literal value
  | .formatted values => ofKind "FormattedString" [("values", many values)]
  | .member object name => ofKind "Attribute" [("object", one object), ("attribute", .ofText name)]
  | .call function args ks starArgs kwArgs =>
    ofKind "Call" [("function", one function), ("args", many args), ("keywords", keywords ks),
      ("starargs", opt starArgs), ("kwargs", opt kwArgs)]
  | .subscript value index => ofKind "Subscript" [("value", one value), ("slice", one index)]
  | .slice lower upper step => ofKind "Slice" [("lower", opt lower), ("upper", opt upper), ("step", opt step)]
  | .binary left op right => ofKind "BinaryOp" [("left", one left), ("op", .ofText op.label), ("right", one right)]
  | .unary op operand => ofKind "UnaryOp" [("op", .ofText op.label), ("operand", one operand)]
  | .compare left ops comparators =>
    ofKind "Compare" [("left", one left), ("ops", Json.ofTexts (ops.map CompareOp.label)),
      ("comparators", many comparators)]
  | .conditional test body otherwise =>
    ofKind "IfExp" [("test", one test), ("body", one body), ("orelse", one otherwise)]
  | .lambda _ ps body => ofKind "Lambda" [("params", params ps), ("body", one body)]
  | .listComp _ element cs => ofKind "ListComp" [("element", one element), ("generators", clauses cs)]
  | .setComp _ element cs => ofKind "SetComp" [("element", one element), ("generators", clauses cs)]
  | .generatorExp _ element cs => ofKind "GeneratorExp" [("element", one element), ("generators", clauses cs)]
  | .dictComp _ key value cs =>
    ofKind "DictComp" [("key", one key), ("value", one value), ("generators", clauses cs)]
  | .tuple elements => ofKind "Tuple" [("elements", many elements)]
  | .list elements => ofKind "List" [("elements", many elements)]
  | .set elements => ofKind "Set" [("elements", many elements)]
  | .dict items splats =>
    ofKind "Dict" [("items", .array (items.map fun p => .array [one p.1, one p.2])), ("splats", many splats)]
  | .starred value => ofKind "Starred" [("value", one value)]
  | .named target value => ofKind "NamedExpr" [("target", .ofText target), ("value", one value)]
  | .await value => ofKind "Await" [("value", one value)]
  | .yield value delegated => ofKind "Yield" [("value", opt value), ("from", .bool delegated)]

/-- A tree of at most the given height. -/
def tree : Nat → Node → Json
  | 0, _ => .null
  | height + 1, node => object (tree height) node

end TreeWriter

def Node.toJson (node : Node) : Json := TreeWriter.tree node.height node

end Surmise
