import Surmise.Project.SourceTree
import Surmise.Query.Members

/-!
# Resolving imports

A name is looked up among the analysed files and in the package graph, and the results are joined: a
directory of the project does not hide a package of the same name, because nothing tells which one the
program will get.
-/

namespace Surmise

/-- Where an import stands, and what it is looked up in. -/
structure Importer where
  /-- The file with the import. -/
  origin : Path
  tree : SourceTree
  /-- Directories that are searched after the ones around the file. -/
  roots : List Path

namespace Importer

variable (i : Importer) (w : World)

/-- The symbol of a top-level name among the analysed files. -/
def localSymbol? (name : String) : Option SymbolId :=
  match i.tree.importAbsolute w.store i.origin name with
  | some symbol => some symbol
  | none => i.roots.findSome? fun root => i.tree.entry? w.store root name

/-- What the package graph has under a top-level name. -/
def graphValue (name : String) : Value :=
  if !(w.graph.distributionsOf name).isEmpty || (w.graph.kind? name).isSome then w.externalValue name
  else .empty

def root (name : String) : Value :=
  let found := match i.localSymbol? w name with
    | some symbol => w.store.value symbol
    | none => .empty
  .unite [found, graphValue w name]

/-- Follows a dotted path down from a value, as long as anything is known. -/
def traverse (v : Value) : List String → Outcome
  | [] => return v
  | name :: rest => do
    if v.isEmpty then return v
    traverse (← w.member callLimit v name) rest

def absolute : List String → Outcome
  | [] => return .empty
  | first :: rest => traverse w (i.root w first) rest

def relative (dots : Nat) : Value :=
  match i.tree.importRelative i.origin dots with
  | some p => .packageRef p
  | none => .empty

def resolve (dots : Nat) (path : List String) : Outcome :=
  if dots = 0 then i.absolute w path else traverse w (i.relative dots) path

end Importer

end Surmise
