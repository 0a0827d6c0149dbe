import Surmise.Propagation.Calls
import Surmise.Propagation.Types

/-!
# Evaluators

Expressions, statements and assignment targets contain each other. Each is treated by functions that take
an evaluator for the parts, so that they can be read and reasoned about one by one.
-/

namespace Surmise

structure Evaluator where
  /-- The value of an expression. -/
  eval : Frame → Node → Run Value
  /-- The effect of a statement. -/
  exec : Frame → Node → Run Unit
  /-- The effect of assigning a value to a target. -/
  assign : Frame → Node → Value → Run Unit

namespace Evaluator

variable (ev : Evaluator)

def evalAll (f : Frame) : List Node → Run (List Value)
  | [] => return []
  | node :: rest => do
    let v ← ev.eval f node
    return v :: (← evalAll f rest)

def evalOption (f : Frame) : Option Node → Run Value
  | some node => ev.eval f node
  | none => return .empty

def visit (f : Frame) : List Node → Run Unit
  | [] => return ()
  | node :: rest => do
    let _ ← ev.eval f node
    visit f rest

def block (f : Frame) : List Node → Run Unit
  | [] => return ()
  | node :: rest => do
    ev.exec f node
    block f rest

/-- What an annotation names. A text is the name of something that may be defined later. -/
def typeNamed (f : Frame) (hint : Node) : Run Value := do
  let type ← ev.eval f hint
  let s ← Run.getStore
  return .unite (type.disjuncts.map fun d =>
    match d.text? with
    | some name => f.valueOf s name
    | none => d)

end Evaluator

end Surmise
