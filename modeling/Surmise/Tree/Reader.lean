import Surmise.Json.Fields
import Surmise.Tree.Show

/-!
# Trees from documents

Reading the JSON form of a tree. Fields that are empty may be missing. Nodes are numbered in the order
in which they are finished.
-/

namespace Surmise

namespace TreeReader

def binaryOps : List BinaryOp :=
  [.add, .sub, .mult, .matMult, .div, .floorDiv, .mod, .pow, .leftShift, .rightShift, .bitOr, .bitXor,
    .bitAnd, .and, .or]

def binary (label : String) : BinaryOp := (binaryOps.find? fun op => op.label == label).getD .add

def unary (label : String) : UnaryOp :=
  ([UnaryOp.not, .invert, .plus, .minus].find? fun op => op.label == label).getD .not

def compare (label : String) : CompareOp :=
  ([CompareOp.eq, .notEq, .lt, .ltE, .gt, .gtE, .is, .isNot, .in, .notIn].find? fun op => op.label == label).getD .eq

def decodeAlias (j : Json) : ImportAlias := ⟨j.texts "path", j.optStr "alias"⟩

/-- The node of an object; `read` reads its children. -/
def node (read : Json → StateM Nat Node) (j : Json) : StateM Nat Node := do
  let one (name : String) : StateM Nat Node := read (j.get name)
  let optOf (j : Json) : StateM Nat (Option Node) := do
    if j.isNull then return none else return some (← read j)
  let opt (name : String) : StateM Nat (Option Node) := optOf (j.get name)
  let manyOf (j : Json) (name : String) : StateM Nat (List Node) := (j.list name).mapM read
  let many (name : String) : StateM Nat (List Node) := manyOf j name
  let keywords : StateM Nat (List (Keyword Node)) :=
    (j.list "keywords").mapM fun k => return ⟨k.str "name", ← read (k.get "value")⟩
  let varParam (j : Json) : StateM Nat (Option (VarParameter Node)) := do
    if j.isNull then return none else return some ⟨j.str "name", ← optOf (j.get "annotation")⟩
  let params : StateM Nat (Parameters Node) := do
    let p := j.get "params"
    let ps ← (p.list "params").mapM fun q => do
      let default ← optOf (q.get "default")
      return (⟨q.str "name", default, ← optOf (q.get "annotation"), q.flag "keyword_only"⟩ : Parameter Node)
    let vararg ← varParam (p.get "vararg")
    return ⟨ps, vararg, ← varParam (p.get "kwarg")⟩
  let clauses : StateM Nat (List (Clause Node)) :=
    (j.list "generators").mapM fun c => do
      let target ← read (c.get "target")
      let iter ← read (c.get "iter")
      return ⟨target, iter, ← manyOf c "ifs"⟩
  let fresh : StateM Nat Nat := modifyGet fun n => (n, n + 1)
  match j.str "k" with
  | "Module" => return .module (← many "body")
  | "FunctionDef" =>
    let ps ← params
    let body ← many "body"
    let decorators ← many "decorators"
    let returns ← opt "returns"
    return .functionDef (← fresh) (j.str "name") ps body decorators returns (j.flag "is_async") (j.num "line")
  | "ClassDef" =>
    let bases ← many "bases"
    let ks ← keywords
    let body ← many "body"
    let decorators ← many "decorators"
    return .classDef (← fresh) (j.str "name") bases ks body decorators (j.num "line")
  | "Assignment" =>
    let targets ← many "targets"
    return .assign targets (← one "value")
  | "AnnotatedAssignment" =>
    let target ← one "target"
    let hint ← one "annotation"
    return .annotated target hint (← opt "value")
  | "AugAssignment" =>
    let target ← one "target"
    return .augmented target (binary (j.str "op")) (← one "value")
  | "Return" => return .returnStmt (← opt "value")
  | "Import" => return .importStmt ((j.list "names").map decodeAlias)
  | "ImportFrom" =>
    return .importFrom (j.num "dots") (j.texts "module") ((j.list "names").map decodeAlias) (j.flag "wildcard")
  | "If" =>
    let branches ← (j.list "branches").mapM fun b => do
      let test ← read (b.get "test")
      return (⟨test, ← manyOf b "body"⟩ : Branch Node)
    return .ifStmt branches (← many "else_body")
  | "For" =>
    let target ← one "target"
    let iter ← one "iter"
    let body ← many "body"
    return .forStmt target iter body (← many "else_body")
  | "While" =>
    let test ← one "test"
    let body ← many "body"
    return .whileStmt test body (← many "else_body")
  | "Try" =>
    let body ← many "body"
    let handlers ← (j.list "handlers").mapM fun h => do
      let kind ← optOf (h.get "type")
      let name ← optOf (h.get "name")
      return (⟨kind, name, ← manyOf h "body"⟩ : Handler Node)
    let otherwise ← many "else_body"
    return .tryStmt body handlers otherwise (← many "finally_body")
  | "With" =>
    let items ← (j.list "items").mapM fun i => do
      let context ← read (i.get "context")
      return (⟨context, ← optOf (i.get "target")⟩ : WithItem Node)
    return .withStmt items (← many "body")
  | "Assert" =>
    let test ← one "test"
    return .assertStmt test (← opt "msg")
  | "Raise" =>
    let exception ← opt "exc"
    return .raiseStmt exception (← opt "cause")
  | "Delete" => return .deleteStmt (← many "targets")
  | "Global" => return .globalStmt (j.texts "names")
  | "Nonlocal" => return .nonlocalStmt (j.texts "names")
  | "Pass" => return .passStmt
  | "Break" => return .breakStmt
  | "Continue" => return .continueStmt
  | "Bad" => return .bad (← many "approximation")
  | "Identifier" => return .ident (j.str "name")
  | "Int" => return .literal (.int ((j.get "value").int?))
  | "Float" => return .literal .float
  | "Complex" => return .literal .complex
  | "Bytes" => return .literal .bytes
  | "None" => return .literal .null
  | "Ellipsis" => return .literal .ellipsis
  | "Str" => return .literal (.str (j.str "value"))
  | "Bool" => return .literal (.bool (j.flag "value"))
  | "FormattedString" => return .formatted (← many "values")
  | "Attribute" => return .member (← one "object") (j.str "attribute")
  | "Call" =>
    let function ← one "function"
    let args ← many "args"
    let ks ← keywords
    let starArgs ← opt "starargs"
    return .call function args ks starArgs (← opt "kwargs")
  | "Subscript" =>
    let value ← one "value"
    return .subscript value (← one "slice")
  | "Slice" =>
    let lower ← opt "lower"
    let upper ← opt "upper"
    return .slice lower upper (← opt "step")
  | "BinaryOp" =>
    let left ← one "left"
    return .binary left (binary (j.str "op")) (← one "right")
  | "UnaryOp" => return .unary (unary (j.str "op")) (← one "operand")
  | "Compare" =>
    let left ← one "left"
    return .compare left ((j.texts "ops").map compare) (← many "comparators")
  | "IfExp" =>
    let test ← one "test"
    let body ← one "body"
    return .conditional test body (← one "orelse")
  | "Lambda" =>
    let ps ← params
    let body ← one "body"
    return .lambda (← fresh) ps body
  | "ListComp" =>
    let element ← one "element"
    let cs ← clauses
    return .listComp (← fresh) element cs
  | "SetComp" =>
    let element ← one "element"
    let cs ← clauses
    return .setComp (← fresh) element cs
  | "GeneratorExp" =>
    let element ← one "element"
    let cs ← clauses
    return .generatorExp (← fresh) element cs
  | "DictComp" =>
    let key ← one "key"
    let value ← one "value"
    let cs ← clauses
    return .dictComp (← fresh) key value cs
  | "Tuple" => return .tuple (← many "elements")
  | "List" => return .list (← many "elements")
  | "Set" => return .set (← many "elements")
  | "Dict" =>
    let items ← (j.list "items").mapM fun p => do
      let key ← read (p.items.headD .null)
      return (key, ← read ((p.items.drop 1).headD .null))
    return .dict items (← many "splats")
  | "Starred" => return .starred (← one "value")
  | "NamedExpr" => return .named (j.str "target") (← one "value")
  | "Await" => return .await (← one "value")
  | "Yield" => return .yield (← opt "value") (j.flag "from")
  | _ => return .bad []

/-- The tree of a document that is nested at most so deep. -/
def tree : Nat → Json → StateM Nat Node
  | 0, _ => return .bad []
  | height + 1, j => node (tree height) j

end TreeReader

def Node.ofJson (j : Json) : Node := (TreeReader.tree (j.height + 1) j 0).1

end Surmise
