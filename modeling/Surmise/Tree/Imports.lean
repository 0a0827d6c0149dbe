import Surmise.Tree.Basic

/-!
# Import declarations

The modules that a source text refers to. They decide the order in which files are analysed.
-/

namespace Surmise

/--
One imported module. The name of a `from` import is kept apart from the path, because it may be a
module of the package or a member of the module.
-/
structure ImportDecl where
  origin : String
  dots : Nat
  path : List String
  name : Option String
  wildcard : Bool
  deriving Repr, Inhabited

def ImportDecl.isRelative (decl : ImportDecl) : Bool :=
  0 < decl.dots

/-- What one import statement declares; any other node declares nothing. -/
def Node.ownImports (origin : String) : Node → List ImportDecl
  | .importStmt names => names.map fun item => ⟨origin, 0, item.path, none, false⟩
  | .importFrom dots source names wildcard =>
    (if wildcard then [⟨origin, dots, source, none, true⟩] else []) ++
      names.map fun item => ⟨origin, dots, source, item.path.head?, false⟩
  | _ => []

mutual

/-- Every import of a tree, in source order, also in functions, classes and conditional blocks. -/
def Node.imports (origin : String) : Node → List ImportDecl
  | .module body => Node.importsAll origin body
  | .functionDef _ _ _ body .. => Node.importsAll origin body
  | .classDef _ _ _ _ body .. => Node.importsAll origin body
  | .withStmt _ body => Node.importsAll origin body
  | .ifStmt branches otherwise =>
    Node.importsOfBranches origin branches ++ Node.importsAll origin otherwise
  | .forStmt _ _ body otherwise => Node.importsAll origin body ++ Node.importsAll origin otherwise
  | .whileStmt _ body otherwise => Node.importsAll origin body ++ Node.importsAll origin otherwise
  | .tryStmt body handlers otherwise final =>
    Node.importsAll origin body ++ Node.importsOfHandlers origin handlers ++
      Node.importsAll origin otherwise ++ Node.importsAll origin final
  | .bad pieces => Node.importsAll origin pieces
  | other => other.ownImports origin

def Node.importsAll (origin : String) : List Node → List ImportDecl
  | [] => []
  | node :: rest => node.imports origin ++ Node.importsAll origin rest

def Node.importsOfBranches (origin : String) : List (Branch Node) → List ImportDecl
  | [] => []
  | ⟨_, body⟩ :: rest => Node.importsAll origin body ++ Node.importsOfBranches origin rest

def Node.importsOfHandlers (origin : String) : List (Handler Node) → List ImportDecl
  | [] => []
  | ⟨_, _, body⟩ :: rest => Node.importsAll origin body ++ Node.importsOfHandlers origin rest

end

end Surmise
