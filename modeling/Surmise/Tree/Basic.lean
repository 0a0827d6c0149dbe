/-!
# Syntax trees

The tree that every analysis works on. Statements and expressions share one type, because code that
could not be read exactly (`Node.bad`) holds pieces of either sort.

A node that opens a scope (a function, a class, a lambda, a comprehension) carries a number that is
unique in its own source text; together with the text it names the definition.
-/

namespace Surmise

structure Parameter (α : Type) where
  name : String
  default : Option α
  hint : Option α
  keywordOnly : Bool

/-- The parameter behind `*` or `**`. -/
structure VarParameter (α : Type) where
  name : String
  hint : Option α

structure Parameters (α : Type) where
  params : List (Parameter α)
  vararg : Option (VarParameter α)
  kwarg : Option (VarParameter α)

structure Keyword (α : Type) where
  name : String
  value : α

structure Handler (α : Type) where
  kind : Option α
  name : Option α
  body : List α

structure WithItem (α : Type) where
  context : α
  target : Option α

/-- One `for target in iter if … if …` clause of a comprehension. -/
structure Clause (α : Type) where
  target : α
  iter : α
  conditions : List α

structure Branch (α : Type) where
  test : α
  body : List α

/-- One clause of an import statement: `a.b.c as d`. -/
structure ImportAlias where
  path : List String
  newName : Option String
  deriving DecidableEq, Repr, Inhabited

inductive Literal where
  /-- Integers outside 64 signed bits have no value. -/
  | int (value : Option Int)
  | float
  | complex
  | str (text : String)
  | bytes
  | bool (value : Bool)
  | null
  | ellipsis
  deriving DecidableEq, Repr, Inhabited

inductive BinaryOp where
  | add | sub | mult | matMult | div | floorDiv | mod | pow | leftShift | rightShift
  | bitOr | bitXor | bitAnd | and | or
  deriving DecidableEq, Repr, Inhabited

inductive UnaryOp where
  | not | invert | plus | minus
  deriving DecidableEq, Repr, Inhabited

inductive CompareOp where
  | eq | notEq | lt | ltE | gt | gtE | is | isNot | in | notIn
  deriving DecidableEq, Repr, Inhabited

inductive Node where
  | module (body : List Node)
  | functionDef (id : Nat) (name : String) (params : Parameters Node) (body decorators : List Node)
      (returns : Option Node) (isAsync : Bool) (line : Nat)
  | classDef (id : Nat) (name : String) (bases : List Node) (keywords : List (Keyword Node))
      (body decorators : List Node) (line : Nat)
  /-- One target for each `=` sign. -/
  | assign (targets : List Node) (value : Node)
  | annotated (target hint : Node) (value : Option Node)
  | augmented (target : Node) (op : BinaryOp) (value : Node)
  | returnStmt (value : Option Node)
  | importStmt (names : List ImportAlias)
  | importFrom (dots : Nat) (source : List String) (names : List ImportAlias) (wildcard : Bool)
  | ifStmt (branches : List (Branch Node)) (otherwise : List Node)
  | forStmt (target iter : Node) (body otherwise : List Node)
  | whileStmt (test : Node) (body otherwise : List Node)
  | tryStmt (body : List Node) (handlers : List (Handler Node)) (otherwise final : List Node)
  | withStmt (items : List (WithItem Node)) (body : List Node)
  | assertStmt (test : Node) (message : Option Node)
  | raiseStmt (exception cause : Option Node)
  | deleteStmt (targets : List Node)
  | globalStmt (names : List String)
  | nonlocalStmt (names : List String)
  | passStmt
  | breakStmt
  | continueStmt
  /-- What has no form of its own; the pieces that could be read are kept. -/
  | bad (pieces : List Node)
  | ident (text : String)
  | literal (value : Literal)
  /-- Only the interpolated expressions of a formatted string are kept. -/
  | formatted (values : List Node)
  | member (object : Node) (name : String)
  | call (function : Node) (args : List Node) (keywords : List (Keyword Node))
      (starArgs kwArgs : Option Node)
  | subscript (value index : Node)
  | slice (lower upper step : Option Node)
  | binary (left : Node) (op : BinaryOp) (right : Node)
  | unary (op : UnaryOp) (operand : Node)
  | compare (left : Node) (ops : List CompareOp) (comparators : List Node)
  | conditional (test body otherwise : Node)
  | lambda (id : Nat) (params : Parameters Node) (body : Node)
  | listComp (id : Nat) (element : Node) (clauses : List (Clause Node))
  | setComp (id : Nat) (element : Node) (clauses : List (Clause Node))
  | dictComp (id : Nat) (key value : Node) (clauses : List (Clause Node))
  | generatorExp (id : Nat) (element : Node) (clauses : List (Clause Node))
  | tuple (elements : List Node)
  | list (elements : List Node)
  | set (elements : List Node)
  | dict (items : List (Node × Node)) (splats : List Node)
  | starred (value : Node)
  | named (target : String) (value : Node)
  | await (value : Node)
  | yield (value : Option Node) (delegated : Bool)

instance : Inhabited Node := ⟨.bad []⟩

def Parameters.empty {α : Type} : Parameters α := ⟨[], none, none⟩

def Parameters.isEmpty {α : Type} (p : Parameters α) : Bool :=
  p.params.isEmpty && p.vararg.isNone && p.kwarg.isNone

namespace Node

def id? : Node → Option Nat
  | .functionDef id .. | .classDef id .. | .lambda id .. | .listComp id .. | .setComp id ..
  | .dictComp id .. | .generatorExp id .. => some id
  | _ => none

def name? : Node → Option String
  | .ident text => some text
  | _ => none

/-- The statements of a module; no other node has any. -/
def body : Node → List Node
  | .module body => body
  | _ => []

def isStatement : Node → Bool
  | .module .. | .functionDef .. | .classDef .. | .assign .. | .annotated .. | .augmented ..
  | .returnStmt .. | .importStmt .. | .importFrom .. | .ifStmt .. | .forStmt .. | .whileStmt ..
  | .tryStmt .. | .withStmt .. | .assertStmt .. | .raiseStmt .. | .deleteStmt .. | .globalStmt ..
  | .nonlocalStmt .. | .passStmt | .breakStmt | .continueStmt => true
  | _ => false

def kind : Node → String
  | .module .. => "module"
  | .functionDef .. => "function"
  | .classDef .. => "class"
  | .assign .. => "assignment"
  | .annotated .. => "annotated assignment"
  | .augmented .. => "augmented assignment"
  | .returnStmt .. => "return"
  | .importStmt .. => "import"
  | .importFrom .. => "import from"
  | .ifStmt .. => "if"
  | .forStmt .. => "for"
  | .whileStmt .. => "while"
  | .tryStmt .. => "try"
  | .withStmt .. => "with"
  | .assertStmt .. => "assert"
  | .raiseStmt .. => "raise"
  | .deleteStmt .. => "del"
  | .globalStmt .. => "global"
  | .nonlocalStmt .. => "nonlocal"
  | .passStmt => "pass"
  | .breakStmt => "break"
  | .continueStmt => "continue"
  | .bad .. => "bad"
  | .ident .. => "name"
  | .literal .. => "literal"
  | .formatted .. => "f-string"
  | .member .. => "attribute"
  | .call .. => "call"
  | .subscript .. => "subscript"
  | .slice .. => "slice"
  | .binary .. => "binary operation"
  | .unary .. => "unary operation"
  | .compare .. => "comparison"
  | .conditional .. => "conditional expression"
  | .lambda .. => "lambda"
  | .listComp .. => "list comprehension"
  | .setComp .. => "set comprehension"
  | .dictComp .. => "dict comprehension"
  | .generatorExp .. => "generator expression"
  | .tuple .. => "tuple"
  | .list .. => "list"
  | .set .. => "set"
  | .dict .. => "dict"
  | .starred .. => "starred"
  | .named .. => "named expression"
  | .await .. => "await"
  | .yield .. => "yield"

end Node

end Surmise
