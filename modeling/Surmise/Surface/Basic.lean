import Surmise.Tree.Basic

/-!
# Surface trees

A source text as it is written. It differs from a `Node` in what the reader of a program does not see:
grouping, statements around expressions, adjacent string literals, aliases, and in that definitions
have no numbers yet. `Surmise.Surface.Lowering` makes nodes of it.
-/

namespace Surmise

/-- A clause of a comprehension as it is written: the iterable may be a list with its commas. -/
structure ForClause (α : Type) where
  target : α
  iters : List α
  conditions : List α

inductive Surface where
  | module (body : List Surface)
  | functionDef (name : String) (params : Parameters Surface) (body decorators : List Surface)
      (returns : Option Surface) (isAsync : Bool) (line : Nat)
  | classDef (name : String) (bases : List Surface) (keywords : List (Keyword Surface))
      (body decorators : List Surface) (line : Nat)
  | assign (targets : List Surface) (value : Surface)
  | annotated (target hint : Surface) (value : Option Surface)
  | augmented (target : Surface) (op : BinaryOp) (value : Surface)
  | returnStmt (value : Option Surface)
  | importStmt (names : List ImportAlias)
  | importFrom (dots : Nat) (source : List String) (names : List ImportAlias) (wildcard : Bool)
  | ifStmt (branches : List (Branch Surface)) (otherwise : List Surface)
  | forStmt (target iter : Surface) (body otherwise : List Surface)
  | whileStmt (test : Surface) (body otherwise : List Surface)
  | tryStmt (body : List Surface) (handlers : List (Handler Surface)) (otherwise final : List Surface)
  | withStmt (items : List (WithItem Surface)) (body : List Surface)
  | assertStmt (test : Surface) (message : Option Surface)
  | raiseStmt (exception cause : Option Surface)
  | deleteStmt (target : Surface)
  | globalStmt (names : List String)
  | nonlocalStmt (names : List String)
  | passStmt
  | breakStmt
  | continueStmt
  /-- Syntax without a form of its own, and what a comment in place of an operand reads as. -/
  | approximate (pieces : List Surface)
  /-- A statement that is an expression, or several with commas between them. -/
  | statement (expressions : List Surface)
  /-- A parenthesis or another wrapper around one expression. -/
  | group (inner : Surface)
  /-- An expression with an alias: `value as target`. -/
  | asPattern (value target : Surface)
  /-- String literals written one after another. -/
  | adjacent (parts : List Surface)
  | ident (text : String)
  | literal (value : Literal)
  | formatted (values : List Surface)
  | member (object : Surface) (name : String)
  | call (function : Surface) (args : List Surface) (keywords : List (Keyword Surface))
      (starArgs kwArgs : Option Surface)
  | subscript (value : Surface) (indices : List Surface)
  | slice (lower upper step : Option Surface)
  | binary (left : Surface) (op : BinaryOp) (right : Surface)
  | unary (op : UnaryOp) (operand : Surface)
  | compare (left : Surface) (ops : List CompareOp) (comparators : List Surface)
  | conditional (test body otherwise : Surface)
  | lambda (params : Parameters Surface) (body : Surface)
  | listComp (element : Surface) (clauses : List (ForClause Surface))
  | setComp (element : Surface) (clauses : List (ForClause Surface))
  | dictComp (key value : Surface) (clauses : List (ForClause Surface))
  | generatorExp (element : Surface) (clauses : List (ForClause Surface))
  | tuple (elements : List Surface)
  | list (elements : List Surface)
  | set (elements : List Surface)
  | dict (items : List (Surface × Surface)) (splats : List Surface)
  | starred (value : Surface)
  | named (target : String) (value : Surface)
  | await (value : Surface)
  | yield (value : Option Surface) (delegated : Bool)

instance : Inhabited Surface := ⟨.approximate []⟩

namespace Surface

/-- What a comment or a joined line reads as where an operand is looked for. -/
def blank : Surface :=
  .approximate []

/-- The operand, unless a gap before it is read in its place. -/
def afterGap (gap : Bool) (operand : Surface) : Surface :=
  if gap then blank else operand

end Surface

end Surmise
