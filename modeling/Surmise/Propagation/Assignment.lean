import Surmise.Propagation.Evaluator

/-!
# Assignments

What an assignment does to each sort of target. A container that is written through a subscript grows,
and the symbol that it was read from gets the grown container.
-/

namespace Surmise

def Node.isStarred : Node → Bool
  | .starred _ => true
  | _ => false

/-- The elements of a tuple or a list that is written out without stars. -/
def Node.plainElements? : Node → Option (List Node)
  | .tuple elements | .list elements => if elements.any Node.isStarred then none else some elements
  | _ => none

/-- A container that is first seen when something is written to it, made to fit the key. -/
def Value.freshContainer (key v : Value) : Value :=
  if key.isEmpty then .unite [.listOf v, .dictOf .empty v.widen]
  else .unite (key.disjuncts.map fun
    | .int _ => .listOf v
    | other => .dictOf other.widen v.widen)

namespace Evaluator

variable (ev : Evaluator)

/-! ## Targets -/

/-- What an element of a target gets from one alternative of the value. -/
def partOf (starred : Bool) (size i : Nat) : Value → Run Value
  | .dict key _ => return key
  | .tuple _ items =>
    return if !starred && items.length = size then (items[i]?).getD .empty else .unite items
  | other => Run.ask fun w => w.elem callLimit other

/-- Assigns the parts of a value to the elements of a target, from place `i` on. -/
def destructureFrom (f : Frame) (starred : Bool) (size : Nat) (v : Value) :
    Nat → List Node → Run Unit
  | _, [] => return ()
  | i, element :: rest => do
    let part := Value.unite (← v.disjuncts.mapM (partOf starred size i))
    match element with
    | .starred target => ev.assign f target (.listOf part)
    | target => ev.assign f target part
    destructureFrom f starred size v (i + 1) rest

def destructure (f : Frame) (elements : List Node) (v : Value) : Run Unit :=
  ev.destructureFrom f (elements.any Node.isStarred) elements.length v 0 elements

def runSetters (receiver v : Value) (member : SymbolId) : Run Unit := do
  if receiver.isInstance then
    for d in ((← Run.getStore).value member).disjuncts do
      match d with
      | .property _ _ setter _ =>
        let _ ← Run.callAccessor setter receiver (some v)
      | _ => pure ()

def assignMember (base : Value) (name : String) (v : Value) : Run Unit := do
  for receiver in base.disjuncts do
    for symbol in ← Run.memberSymbols true receiver name do
      runSetters receiver v symbol
      Run.write symbol v

/-- Writes a value to the symbol that an expression is read from. -/
def rebind (f : Frame) (target : Node) (v : Value) : Run Unit := do
  match target with
  | .ident name =>
    match ← Run.lookupBinding? f name with
    | some symbol => Run.write symbol v
    | none => Run.assignName f name v false
  | .member object name =>
    let base ← match object.name? with
      | some base => pure (f.valueOf (← Run.getStore) base)
      | none => ev.eval f object
    for symbol in ← Run.memberSymbols true base name do
      Run.write symbol v
  | _ => return ()

def setItems (base key v : Value) : Run Unit := do
  for d in base.disjuncts do
    match d with
    | .instanceOf _ | .externalInstance _ =>
      let setter ← Run.ask fun w => w.member callLimit d "__setitem__"
      let _ ← Run.doCall setter (.ofPositional [key, v])
    | _ => pure ()

/-- The key and the value of a write through a subscript. A slice takes the elements of the value. -/
def subscriptWrite (f : Frame) (index : Node) (v : Value) : Run (Value × Value) := do
  let key ← ev.eval f index
  match index with
  | .slice .. => return (.int none, ← Run.ask fun w => w.elem callLimit v)
  | _ => return (key, v)

def assignIndex (f : Frame) (container index : Node) (v : Value) : Run Unit := do
  let base ← ev.eval f container
  let (key, v) ← ev.subscriptWrite f index v
  if base.isAssignable then
    ev.rebind f container (← Run.inStore (StoreM.setIndex base key v))
  else if base.isEmpty then
    ev.rebind f container (.freshContainer key v)
  else
    setItems base key v

def assignTo (f : Frame) (target : Node) (v : Value) : Run Unit := do
  match target with
  | .ident name => Run.assignName f name v false
  | .member object name =>
    let base ← ev.eval f object
    Run.recordMember f object name
    assignMember base name v
  | .subscript container index => ev.assignIndex f container index v
  | .tuple elements | .list elements => ev.destructure f elements v
  | .starred target => ev.assign f target (.listOf v)
  | other =>
    let _ ← ev.eval f other

/-! ## Statements -/

def calleeReturns (f : Frame) (function : Node) : Run (List SymbolId) := do
  let s ← Run.getStore
  let w ← Run.world
  let callee := match function with
    | .ident name => f.valueOf s name
    | .member object name =>
      match f.symbolOf? s object with
      | some symbol => (w.member callLimit (s.value symbol) name).toOption.getD .empty
      | none => .empty
    | _ => .empty
  return (Store.functionsIn callee).map fun function => (s.function function).returns

def recordAssignment (f : Frame) (targets : List Node) (value : Node) : Run Unit := do
  if ← Run.isRecording then
    let s ← Run.getStore
    match targets.map (f.symbolOf? s) with
    | [some target] =>
      let sources ← match value with
        | .ident name => pure (f.lookup? s name).toList
        | .call function .. => calleeReturns f function
        | _ => pure []
      for source in sources do
        Run.record fun r => r.recordFlow source target
    | _ => return ()

/-- The value of what is assigned, and the values of its elements if these are written out. -/
def evalAssigned (f : Frame) (value : Node) : Run (Value × Option (List Value)) := do
  match value.plainElements? with
  | some elements =>
    let items ← ev.evalAll f elements
    let whole ← Run.numbered (match value with
      | .tuple _ => .tupleOf items
      | _ => .listOf (.unite items))
    Run.tell (.resolved value whole)
    return (whole, some items)
  | none => return (← ev.eval f value, none)

def assignAll (f : Frame) : List Node → List Value → Run Unit
  | target :: targets, v :: values => do
    ev.assign f target v
    assignAll f targets values
  | _, _ => return ()

/-- Assigns to one target. Elements that are written out on both sides are assigned one by one. -/
def assignAssigned (f : Frame) (whole : Value) (items? : Option (List Value)) (target : Node) :
    Run Unit := do
  match target.plainElements?, items? with
  | some elements, some items =>
    if elements.length = items.length then ev.assignAll f elements items
    else ev.assign f target whole
  | _, _ => ev.assign f target whole

def assignment (f : Frame) (targets : List Node) (value : Node) : Run Unit := do
  let (whole, items?) ← ev.evalAssigned f value
  for target in targets do
    ev.assignAssigned f whole items? target
  recordAssignment f targets value

def annotatedAssignment (f : Frame) (target hint : Node) (value : Option Node) : Run Unit := do
  let type ← ev.typeNamed f hint
  match value with
  | some value => ev.assign f target (← ev.eval f value)
  | none => pure ()
  ev.assign f target (← Run.instantiate type)

end Evaluator

end Surmise
