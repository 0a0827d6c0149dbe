import Surmise.Proofs.Propagation.Undisturbed

/-!
# Chains of calls

A module that defines functions in any order, of which the innermost returns its argument and each other one
what the one before it makes of it, and that calls the outermost one with a constant.
-/

namespace Surmise

/-- Functions that call each other in a chain, and a constant that is handed to the outermost one. -/
structure CallChain where
  depth : Nat
  /-- The names of the functions, from the innermost on. -/
  name : Nat → String
  /-- The numbers of their nodes, and the lines on which they stand. -/
  node : Nat → Nat
  line : Nat → Nat
  /-- The functions in the order in which they are written. -/
  written : List Nat
  constant : String
  positive : 0 < depth
  complete : written.Perm (List.range depth)
  name_inj : ∀ i < depth, ∀ j < depth, name i = name j → i = j
  node_inj : ∀ i < depth, ∀ j < depth, node i = node j → i = j
  name_ne : ∀ i < depth, name i ≠ "x" ∧ name i ≠ "out"

namespace CallChain

variable (c : CallChain)

/-- What a function returns. -/
def returned : Nat → Node
  | 0 => .ident "x"
  | i + 1 => .call (.ident (c.name i)) [.ident "x"] [] none none

def parameters : Parameters Node := ⟨[⟨"x", none, none, false⟩], none, none⟩

def definition (i : Nat) : Node :=
  .functionDef (c.node i) (c.name i) parameters [.returnStmt (some (c.returned i))] [] none false (c.line i)

def call : Node := .call (.ident (c.name (c.depth - 1))) [.literal (.str c.constant)] [] none none

def tree : Node := .module (c.written.map c.definition ++ [.assign [.ident "out"] c.call])

def file (path : Path) (libraryRoot : Option Path) : SourceFile := .ofTree path c.tree libraryRoot

end CallChain

end Surmise
