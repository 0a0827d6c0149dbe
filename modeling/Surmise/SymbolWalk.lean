import Surmise.Propagation.Session

/-!
# All symbols of an assembly

Every symbol of the packages, modules, classes, functions, lambdas and comprehensions, each once. No two
of them may have the same address: where that happens, two scopes were given one address, and the walk
ends.
-/

namespace Surmise

/-- The symbols that were visited, and the address at which the walk ended early. -/
structure SymbolWalk where
  visited : List SymbolId
  conflict : Option Address

namespace SymbolWalk

/-- Visits symbols in turn; `visited` has the last one first. -/
def go (s : Store) (visited : List SymbolId) : List SymbolId → SymbolWalk
  | [] => ⟨visited.reverse, none⟩
  | id :: rest =>
    let address := (s.symbol id).address
    if id ∈ visited then go s visited rest
    else if visited.any fun other => (s.symbol other).address == address then
      ⟨visited.reverse, some address⟩
    else go s (id :: visited) rest

/-- The symbols, or why there are none. -/
def result (walk : SymbolWalk) : Except AnalysisError (List SymbolId) :=
  match walk.conflict with
  | some address => .error (.invariantViolation ("two symbols share the address " ++ address.show))
  | none => .ok walk.visited

end SymbolWalk

namespace Assembly

variable (a : Assembly) (s : Store)

def modules : List ModuleId := a.files.filterMap fun file => a.tree.file? file.path

def allFunctions : List FunctionId := (a.functions ++ a.lambdas).map Prod.snd

def symbols : List SymbolId :=
  a.tree.dirs.flatMap (fun entry => s.symbolsOf (s.package entry.2).entries) ++
    a.modules.flatMap (fun m => s.symbolsOf (s.module m).members) ++
    a.classes.flatMap (fun entry => s.symbolsOf (s.classOf entry.2).members) ++
    a.allFunctions.flatMap (fun f => s.symbolsOf (s.function f).locals ++ [(s.function f).returns]) ++
    a.comprehensions.flatMap (fun entry => s.symbolsOf entry.2)

def walk : SymbolWalk := .go s [] (a.symbols s)

def findSymbol (file : Path) (path : String) : Option SymbolId :=
  (a.walk s).visited.find? fun id => (s.symbol id).address == ⟨file, path⟩

end Assembly

end Surmise
