import Surmise.Tree.Basic

/-!
# Declared names

The names that a function body declares `global` or `nonlocal`. A declaration counts for the whole body,
also where it stands in a block; the ones in nested definitions do not count.
-/

namespace Surmise

/-- Where a declared name lives. -/
inductive Declaration where
  | globally (name : String)
  | nonlocally (name : String)
  deriving DecidableEq, Repr

mutual

def Node.declared : Node → List Declaration
  | .globalStmt names => names.map .globally
  | .nonlocalStmt names => names.map .nonlocally
  | .ifStmt branches otherwise => declaredInBranches branches ++ Node.declaredAll otherwise
  | .forStmt _ _ body otherwise => Node.declaredAll body ++ Node.declaredAll otherwise
  | .whileStmt _ body otherwise => Node.declaredAll body ++ Node.declaredAll otherwise
  | .tryStmt body handlers otherwise final =>
    Node.declaredAll body ++ declaredInHandlers handlers ++ Node.declaredAll otherwise ++
      Node.declaredAll final
  | .withStmt _ body => Node.declaredAll body
  | _ => []

def Node.declaredAll : List Node → List Declaration
  | [] => []
  | node :: rest => node.declared ++ Node.declaredAll rest

def declaredInBranches : List (Branch Node) → List Declaration
  | [] => []
  | ⟨_, body⟩ :: rest => Node.declaredAll body ++ declaredInBranches rest

def declaredInHandlers : List (Handler Node) → List Declaration
  | [] => []
  | ⟨_, _, body⟩ :: rest => Node.declaredAll body ++ declaredInHandlers rest

end

def Declaration.global? : Declaration → Option String
  | .globally name => some name
  | .nonlocally _ => none

def Declaration.nonlocal? : Declaration → Option String
  | .globally _ => none
  | .nonlocally name => some name

end Surmise
