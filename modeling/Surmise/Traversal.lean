/-!
# Graph traversal

What can be reached from some starting points by following links, each point once, in the order in
which a depth-first or a breadth-first search comes to it. A search takes at most as many steps as
there are starting points and links, so a caller passes a bound on that.
-/

namespace Surmise.Traversal

variable {α : Type} [DecidableEq α]

/-- Visits the pending points, the first one next; a point's links come before the other points. -/
def depthFirst (links : α → List α) : (steps : Nat) → (visited pending : List α) → List α
  | 0, visited, _ => visited
  | _ + 1, visited, [] => visited
  | steps + 1, visited, point :: pending =>
    if point ∈ visited then depthFirst links steps visited pending
    else depthFirst links steps (visited ++ [point]) (links point ++ pending)

/-- Visits the pending points, the first one next; a point's links come after the other points. -/
def breadthFirst (links : α → List α) : (steps : Nat) → (visited pending : List α) → List α
  | 0, visited, _ => visited
  | _ + 1, visited, [] => visited
  | steps + 1, visited, point :: pending =>
    if point ∈ visited then breadthFirst links steps visited pending
    else breadthFirst links steps (visited ++ [point]) (pending ++ links point)

end Surmise.Traversal
