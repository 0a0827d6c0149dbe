import Surmise.Graph.Basic

/-!
# Building graphs

Declarations add nodes one by one. A node is a member of the one its path lies in, which is added as a
module if it is missing; a package without a declared distribution is provided by one of its own name.
-/

namespace Surmise.Graph

/-- A dotted path as the path around it and its last name. -/
def splitLast? (path : String) : Option (String × String) :=
  let reversed := path.toList.reverse
  match reversed.dropWhile (· ≠ '.') with
  | [] => none
  | _ :: front =>
    some (String.ofList front.reverse, String.ofList (reversed.takeWhile (· ≠ '.')).reverse)

def modifyNode (g : Graph) (path : String) (f : GraphNode → GraphNode) : Graph :=
  match g.nodes.get? path with
  | some node => { g with nodes := g.nodes.insert path (f node) }
  | none => g

/-- Adds a node, or gives the one that is there its kind, bases and type. -/
def setNode (g : Graph) (path : String) (node : GraphNode) : Graph :=
  match g.nodes.get? path with
  | some old =>
    let merged := { old with kind := node.kind, bases := node.bases, returns := node.returns }
    { g with nodes := g.nodes.insert path merged }
  | none => { g with nodes := g.nodes.insert path node }

/-- Adds a node with the nodes around it; `fuel` bounds how many of these are missing. -/
def insertWithin : Nat → Graph → String → GraphNode → Graph
  | 0, g, path, node => g.setNode path node
  | fuel + 1, g, path, node =>
    let g := match splitLast? path with
      | some (parent, name) =>
        let g := if g.nodes.contains parent then g
          else insertWithin fuel g parent (.ofKind .module)
        g.modifyNode parent fun around => { around with members := around.members.insert name path }
      | none =>
        if g.distributions.contains path then g
        else { g with distributions := g.distributions.insert path [path] }
    g.setNode path node

def insertNode (g : Graph) (path : String) (node : GraphNode) : Graph :=
  insertWithin (path.length + 1) g path node

def declareModule (g : Graph) (path : String) : Graph := g.insertNode path (.ofKind .module)

def declareClass (g : Graph) (path : String) (bases : List String) : Graph :=
  g.insertNode path { GraphNode.ofKind .type with bases }

def declareFunction (g : Graph) (path : String) (returns : Option String) : Graph :=
  g.insertNode path { GraphNode.ofKind .function with returns }

def declareInstance (g : Graph) (path type : String) : Graph :=
  g.insertNode path { GraphNode.ofKind .value with returns := some type }

/-- Makes a path stand for another node. -/
def declareAlias (g : Graph) (path target : String) : Graph :=
  match splitLast? path with
  | some (parent, name) =>
    let g := if g.nodes.contains parent then g else g.insertNode parent (.ofKind .module)
    g.modifyNode parent fun around => { around with members := around.members.insert name target }
  | none => g

def declareDistribution (g : Graph) (top distribution : String) : Graph :=
  let known := g.distributionsOf top
  if known.contains distribution then g
  else { g with distributions := g.distributions.insert top (known ++ [distribution]) }

def setPopularity (g : Graph) (path : String) (count : Nat) : Graph :=
  g.modifyNode path fun node => { node with popularity := count }

end Surmise.Graph
