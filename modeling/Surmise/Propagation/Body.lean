import Surmise.Propagation.Statement
import Surmise.Tree.Show

/-!
# Bodies

The evaluator itself, and a visit to the body of a module or a function.
-/

namespace Surmise

namespace Evaluator

/-- An evaluator that may not take any step. -/
def exhausted : Evaluator where
  eval _ _ := throw .exhausted
  exec _ _ := throw .exhausted
  assign _ _ _ := throw .exhausted

/-- Treats a node with an evaluator for its parts. Every value is announced. -/
def around (ev : Evaluator) : Evaluator where
  eval f node := do
    Run.check
    let v ← Run.numbered (← ev.evalNode f node)
    Run.say fun s => "evaluated " :: node.show :: " -> " :: s.pieces v
    Run.tell (.resolved node v)
    return v
  exec f node := do
    Run.check
    ev.execNode f node
  assign f target v := ev.assignTo f target v

/--
The evaluator for nodes that are nested at most so deep. A text that the program evaluates counts as
nested in the call, so only programs that evaluate texts can need more than their own height.
-/
def ofDepth : (depth : Nat) → Evaluator
  | 0 => exhausted
  | depth + 1 =>
    -- what is nested in a node is looked at only once the node is reached
    { eval := fun f node => (around (ofDepth depth)).eval f node
      exec := fun f node => (around (ofDepth depth)).exec f node
      assign := fun f target v => (around (ofDepth depth)).assign f target v }

theorem ofDepth_succ (depth : Nat) : ofDepth (depth + 1) = around (ofDepth depth) := rfl

end Evaluator

namespace Run

/-- Binds `self` or `cls` to the class of a method and all its subclasses. -/
def bindReceiver (function : FunctionId) : Run Unit := do
  let s ← getStore
  let info := s.function function
  match info.params, info.owner with
  | first :: _, some c =>
    match info.receiver with
    | .unbound => return ()
    | .onInstance => inStore (StoreM.put first.symbol (.unite ((s.walkSubclasses c).map .instanceOf)))
    | .onClass => inStore (StoreM.put first.symbol (.unite ((s.walkSubclasses c).map .classRef)))
  | _, _ => return ()

def visitFunction (ev : Evaluator) (function : FunctionId) : Run Unit := do
  let info := (← getStore).function function
  say fun s => "### PROPAGATING FUNCTION " :: (s.functionAddress function).pieces
  let f := Frame.body info.home info.locals (some function) info.origin
  bindReceiver function
  match info.node with
  | .functionDef _ _ _ body .. =>
    let declared := Node.declaredAll body
    ev.block { f with
      globals := declared.filterMap Declaration.global?
      nonlocals := declared.filterMap Declaration.nonlocal? } body
  | .lambda _ _ body => produceReturn f (← ev.eval f body)
  | _ => return ()

def visitModule (ev : Evaluator) (index : Nat) : Run Unit := do
  let s ← get
  match s.assembly.files[index]? with
  | none => return ()
  | some file =>
    match s.assembly.tree.file? file.path with
    | none => return ()
    | some m =>
      say fun s => ["### PROPAGATING MODULE ", (s.module m).path.text]
      ev.block (.body m (s.store.module m).members none (.file index)) file.tree.body

def visitItem (ev : Evaluator) : WorkItem → Run Unit
  | .module index => visitModule ev index
  | .function f => visitFunction ev f

end Run

end Surmise
