import Surmise.OrderedMap
import Surmise.Traversal

/-!
# Package graphs

What is known of packages whose source is not analysed: their members, the bases of types, and what
functions return. Nodes are named by dotted paths. A member maps a name to the path of the node it
stands for, so an alias such as `os.path` for `posixpath` is a plain member.
-/

namespace Surmise

inductive NodeKind where
  | module
  | type
  | function
  /-- A value of some type, at the level of a module or a class. -/
  | value
  deriving DecidableEq, Repr, Inhabited

def NodeKind.label : NodeKind → String
  | .module => "module"
  | .type => "type"
  | .function => "function"
  | .value => "instance"

def NodeKind.ofLabel? : String → Option NodeKind
  | "module" => some .module
  | "type" => some .type
  | "function" => some .function
  | "instance" => some .value
  | _ => none

structure GraphNode where
  kind : NodeKind
  members : OrderedMap String
  bases : List String
  /-- What a function returns, or the type of an instance. -/
  returns : Option String
  popularity : Nat
  deriving Inhabited

def GraphNode.ofKind (kind : NodeKind) : GraphNode := ⟨kind, .empty, [], none, 0⟩

/-- What a node refers to: members, then bases, then the type it returns. -/
def GraphNode.references (node : GraphNode) : List String :=
  node.members.values ++ node.bases ++ node.returns.toList

structure Graph where
  /-- The distributions that provide a package, by the name of the package. -/
  distributions : OrderedMap (List String)
  nodes : OrderedMap GraphNode
  deriving Inhabited

namespace Graph

def empty : Graph := ⟨.empty, .empty⟩

def node? (g : Graph) (path : String) : Option GraphNode := g.nodes.get? path

def size (g : Graph) : Nat := g.nodes.size

def distributionsOf (g : Graph) (top : String) : List String := (g.distributions.get? top).getD []

def kind? (g : Graph) (path : String) : Option NodeKind := (g.node? path).map GraphNode.kind

/-- The names of the members of a node. -/
def children (g : Graph) (path : String) : List String :=
  match g.node? path with
  | some node => node.members.keys
  | none => []

/-- The path that a member of a node stands for. -/
def member? (g : Graph) (path name : String) : Option String :=
  (g.node? path).bind fun node => node.members.get? name

def basesOf (g : Graph) (path : String) : List String :=
  match g.node? path with
  | some node => node.bases
  | none => []

def returnsOf (g : Graph) (path : String) : Option String := (g.node? path).bind GraphNode.returns

def popularityOf (g : Graph) (path : String) : Nat :=
  match g.node? path with
  | some node => node.popularity
  | none => 0

/-- A bound on the steps of a search along bases. -/
def baseSteps (g : Graph) : Nat :=
  g.nodes.entries.foldl (fun n entry => n + entry.2.bases.length) 1

/-- A path and everything it derives from, nearest first. -/
def baseOrder (g : Graph) (path : String) : List String :=
  Traversal.breadthFirst g.basesOf g.baseSteps [] [path]

structure Dangling where
  target : String
  origin : String
  deriving DecidableEq, Repr

/-- The first reference, in the order of the nodes, whose target is missing. -/
def dangling? (g : Graph) : Option Dangling :=
  g.nodes.entries.findSome? fun (path, node) =>
    (node.references.find? fun target => !g.nodes.contains target).map fun target => ⟨target, path⟩

end Graph

inductive GraphError where
  | malformed
  | dangling (reference : Graph.Dangling)
  deriving DecidableEq, Repr

def GraphError.message : GraphError → String
  | .malformed => "Malformed package graph"
  | .dangling reference =>
    "Package graph node " ++ reference.target ++ " (from " ++ reference.origin ++
      ") is referenced but never defined"

end Surmise
