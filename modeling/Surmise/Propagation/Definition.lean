import Surmise.Propagation.Evaluator

/-!
# Definitions

Functions, lambdas and classes. A definition is made when it is reached first; later passes find it
again, and join what its defaults, annotations and decorators add.
-/

namespace Surmise

namespace Run

def numberedAddress (address : Address) (n : Nat) : Address :=
  ⟨address.file, address.path ++ "[" ++ toString n ++ "]"⟩

/-- The first of the numbered addresses from `n` on that is free; at most `fuel` are tried. -/
def freeAddress (reserved : List Address) (address : Address) : (fuel n : Nat) → Address
  | 0, n => numberedAddress address n
  | fuel + 1, n =>
    if reserved.any (· == numberedAddress address n) then freeAddress reserved address fuel (n + 1)
    else numberedAddress address n

/-- Reserves an address for a scope. If another scope has it, a number is added. -/
def reserveAddress (address : Address) : Run Address := do
  let reserved := (← get).assembly.reserved
  let free := if reserved.any (· == address) then freeAddress reserved address reserved.length 2 else address
  modifyAssembly fun a => { a with reserved := free :: a.reserved }
  return free

/-- What a function is made from, apart from its scope. -/
structure Signature where
  name : String
  node : Node
  params : Parameters Node
  receiver : Receiver

def makeFunction (f : Frame) (signature : Signature) : Run FunctionId := do
  let address ← reserveAddress (((← getStore).table f.scope).address.child signature.name)
  inStore (StoreM.newFunction
    { name := signature.name, node := signature.node, origin := f.origin, params := signature.params,
      address, parent := f.inherited, receiver := signature.receiver, owner := f.owner, home := f.home })

def define (f : Frame) (signature : Signature) : Run FunctionId := do
  let function ← makeFunction f signature
  match ((← getStore).function function).vararg with
  | some symbol => inStore (StoreM.produce symbol (.listOf .empty))
  | none => pure ()
  modifyAssembly fun a => { a with order := a.order.push (.function function) }
  return function

def makeClass (f : Frame) (name : String) : Run ClassId := do
  let address ← reserveAddress (((← getStore).table f.scope).address.child name)
  let moduleName := ((← getStore).module f.home).name
  inStore (StoreM.newClass name address moduleName)

end Run

/-- The name that a decorator is known by: the last name of its path, without arguments. -/
def Node.decoratorName? : Node → Option String
  | .ident name => some name
  | .member _ name => some name
  | .call function .. => function.decoratorName?
  | _ => none

def Value.isPropertyDecorator (v : Value) : Bool :=
  v.disjuncts.any fun
    | .builtin (.type .property) => true
    | .method _ (.property ..) name => ["getter", "setter", "deleter"].contains name
    | _ => false

namespace Evaluator

variable (ev : Evaluator)

/-! ## Functions -/

/-- Joins the default and the annotation of a parameter into its symbol. -/
def bindParameter (f : Frame) (param : Parameter Node) (symbol : SymbolId) : Run Unit := do
  match param.default with
  | some node => Run.inStore (StoreM.produce symbol (← ev.eval f node))
  | none => pure ()
  match param.hint with
  | some hint =>
    let type ← ev.typeNamed f hint
    Run.inStore (StoreM.produce symbol (← Run.instantiate type))
  | none => pure ()

def bindParameters (f : Frame) : List (Parameter Node) → List Param → Run Unit
  | param :: params, slot :: slots => do
    ev.bindParameter f param slot.symbol
    bindParameters f params slots
  | _, _ => return ()

/-- Joins the annotation of a `*` or `**` parameter into its symbol, inside its container. -/
def bindCollector (f : Frame) (container : Value → Value) :
    Option (VarParameter Node) → Option SymbolId → Run Unit
  | some ⟨_, some hint⟩, some symbol => do
    let type ← ev.typeNamed f hint
    Run.inStore (StoreM.produce symbol (container (← Run.instantiate type)))
  | _, _ => return ()

/-- Joins the defaults and annotations of all parameters, which are evaluated where it is defined. -/
def bindSignature (f : Frame) (function : FunctionId) (params : Parameters Node) : Run Unit := do
  let info := (← Run.getStore).function function
  ev.bindParameters f params.params info.params
  ev.bindCollector f .listOf params.vararg info.vararg
  ev.bindCollector f (.dictOf (.str none)) params.kwarg info.kwarg

/-- Applies the decorators from the inside out. Only those of properties change what is bound. -/
def decorate (bound : Value) : List Value → Run Value
  | [] => return bound
  | decorator :: outer => do
    if decorator.isPropertyDecorator then
      let wrapped ← Run.doCall decorator (.ofPositional [bound])
      decorate (if wrapped.isEmpty then bound else wrapped) outer
    else decorate bound outer

def functionAt (f : Frame) (id : Nat) (name : String) (params : Parameters Node)
    (decorators : List Node) (node : Node) : Run FunctionId := do
  match (← get).assembly.functions.lookup (f.site id) with
  | some function => return function
  | none =>
    let receiver := Receiver.classify f.owner.isSome (!params.params.isEmpty)
      (decorators.filterMap Node.decoratorName?)
    let function ← Run.define f ⟨name, node, params, receiver⟩
    Run.modifyAssembly fun a => { a with functions := a.functions ++ [(f.site id, function)] }
    return function

def functionDef (f : Frame) (id : Nat) (name : String) (params : Parameters Node)
    (decorators : List Node) (returns : Option Node) (node : Node) : Run Unit := do
  let function ← functionAt f id name params decorators node
  let applied ← ev.evalAll f decorators
  match returns with
  | some hint =>
    let type ← ev.typeNamed f hint
    let instances ← Run.instantiate type
    Run.inStore (StoreM.produce ((← Run.getStore).function function).returns instances)
  | none => pure ()
  ev.bindSignature f function params
  Run.assignName f name (← decorate (.functionRef function) applied.reverse) false

def lambdaAt (f : Frame) (id : Nat) (params : Parameters Node) (node : Node) : Run FunctionId := do
  match (← get).assembly.lambdas.lookup (f.site id) with
  | some function => return function
  | none =>
    let function ← Run.define f ⟨"[lambda]", node, params, .unbound⟩
    Run.modifyAssembly fun a => { a with lambdas := a.lambdas ++ [(f.site id, function)] }
    return function

def evalLambda (f : Frame) (id : Nat) (params : Parameters Node) (node : Node) : Run Value := do
  let function ← lambdaAt f id params node
  ev.bindSignature f function params
  return .functionRef function

/-! ## Classes -/

def classAt (f : Frame) (id : Nat) (name : String) : Run ClassId := do
  match (← get).assembly.classes.lookup (f.site id) with
  | some c => return c
  | none =>
    let c ← Run.makeClass f name
    Run.modifyAssembly fun a => { a with classes := a.classes ++ [(f.site id, c)] }
    return c

/-- Makes a class known to the source classes among the alternatives of a base. -/
def registerSubclass (c : ClassId) : List Value → StoreM Unit
  | [] => return ()
  | .classRef parent :: rest => do
    if parent ≠ c then StoreM.addSubclass parent c
    registerSubclass c rest
  | _ :: rest => registerSubclass c rest

/-- Evaluates the bases of a class; one that is unknown is left out. -/
def evalBases (f : Frame) (c : ClassId) : List Node → Run (List Value)
  | [] => return []
  | base :: rest => do
    let v ← ev.eval f base
    Run.inStore (registerSubclass c v.disjuncts)
    Run.say fun s => "adding base " :: s.pieces v ++ " to " :: (s.classAddress c).pieces
    let others ← evalBases f c rest
    return if v.isEmpty then others else v :: others

/--
The body of a class binds its names in a table of its own, from which the policy makes the members.
Functions that are defined in the body do not see that table.
-/
def classBody (f : Frame) (c : ClassId) (body : List Node) : Run Unit := do
  let address := (← Run.getStore).classAddress c
  let table ← Run.openBody address f.inherited
  ev.block (f.inner table f.inherited (some c)) body
  let setting ← read
  Run.inAnalysis (applyPolicies setting.graph setting.policies c table)
  Run.inStore (StoreM.clearValues table)

def classDef (f : Frame) (id : Nat) (name : String) (bases : List Node)
    (keywords : List (Keyword Node)) (body decorators : List Node) : Run Unit := do
  let c ← classAt f id name
  let baseValues ← ev.evalBases f c bases
  ev.visit f (keywords.map Keyword.value)
  ev.visit f decorators
  Run.inStore (StoreM.modifyClass c fun info => { info with bases := baseValues })
  ev.classBody f c body
  Run.assignName f name (.classRef c) false

end Evaluator

end Surmise
