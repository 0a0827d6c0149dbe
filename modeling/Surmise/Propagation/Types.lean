import Surmise.Propagation.Session

/-!
# Types as values

The instances that an annotation, a handler or an assertion about types speaks of.
-/

namespace Surmise

namespace World

variable (w : World)

mutual

/-- The instances of a type; a tuple of types stands for any of them. -/
def instantiate : Value → Value
  | .union alternatives => .unite (instantiateAll alternatives)
  | .tuple _ items => .unite (instantiateAll items)
  | .classRef c => .instanceOf c
  | .builtin (.type t) => t.anInstance
  | .external path => if w.graph.kind? path = some .type then externalInstance path else .empty
  | .null => .null
  | _ => .empty

def instantiateAll : List Value → List Value
  | [] => []
  | v :: rest => instantiate v :: instantiateAll rest

end

mutual

/-- The classes of a value with all their subclasses. What is no class of the program is kept. -/
def withSubclasses : Value → Value
  | .union alternatives => .unite (withSubclassesAll alternatives)
  | .tuple _ items => .unite (withSubclassesAll items)
  | .classRef c => .unite ((w.store.walkSubclasses c).map .classRef)
  | other => other

def withSubclassesAll : List Value → List Value
  | [] => []
  | v :: rest => withSubclasses v :: withSubclassesAll rest

end

end World

namespace Run

def instantiate (type : Value) : Run Value := return (← world).instantiate type

end Run

end Surmise
