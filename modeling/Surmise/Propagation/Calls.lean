import Surmise.Propagation.Frame

/-!
# Calling functions of the program

A call binds its arguments to the parameters and gives what the function is known to return so far. The
body of the function is visited on its own.
-/

namespace Surmise

namespace Store

def functionsIn (v : Value) : List FunctionId :=
  v.disjuncts.filterMap fun
    | .functionRef f => some f
    | _ => none

def receiverCount (s : Store) (f : FunctionId) : Nat :=
  if (s.function f).receiver = .unbound then 0 else 1

def positionalParams (s : Store) (f : FunctionId) : List SymbolId :=
  (((s.function f).params.drop (s.receiverCount f)).filter fun p => !p.keywordOnly).map Param.symbol

end Store

namespace StoreM

def bindInOrder : List SymbolId → List Value → StoreM Unit
  | symbol :: symbols, v :: values => do
    produce symbol v
    bindInOrder symbols values
  | _, _ => return ()

def bindKeyword (f : FunctionId) (name : String) (v : Value) : StoreM Unit := do
  match (← get).param? f name with
  | some symbol => produce symbol v
  | none =>
    match ((← get).function f).kwargs with
    | some dict => addKwarg dict name v
    | none => return ()

def bindKeywords (f : FunctionId) : List (String × Value) → StoreM Unit
  | [] => return ()
  | (name, v) :: rest => do
    bindKeyword f name v
    bindKeywords f rest

/-- Binds the entries of the keyword dictionaries behind `**`; any other mapping names no parameters. -/
def bindSpreadKeywords (f : FunctionId) : List Value → StoreM Unit
  | [] => return ()
  | .kwargs dict :: rest => do
    bindKeywords f ((← get).kwargsOf dict).entries
    bindSpreadKeywords f rest
  | _ :: rest => bindSpreadKeywords f rest

end StoreM

namespace Run

/-- The special method that calling an alternative runs. -/
def calledMethod? : Value → Option String
  | .classRef _ => some "__init__"
  | .instanceOf _ => some "__call__"
  | _ => none

def targetsOf (v : Value) : Run (List FunctionId) := do
  match v, calledMethod? v with
  | .functionRef f, _ => return [f]
  | _, some name =>
    let symbols ← memberSymbols false v name
    let s ← getStore
    return symbols.flatMap fun symbol => Store.functionsIn (s.value symbol)
  | _, none => return []

def callTargets (callee : Value) : Run (List FunctionId) := do
  return (← callee.disjuncts.mapM targetsOf).flatten

def bindPositional (f : FunctionId) (args : Args) : Run Unit := do
  let params := (← getStore).positionalParams f
  inStore (StoreM.bindInOrder params args.positional)
  if params.length < args.positional.length then
    match ((← getStore).function f).vararg with
    | some symbol =>
      inStore (StoreM.produce symbol (.listOf (.unite (args.positional.drop params.length))))
    | none => return ()

/-- Binds what stands behind `*` to the parameters that are left. -/
def bindSpread (f : FunctionId) (args : Args) : Run Unit := do
  match args.vararg with
  | none => return ()
  | some spread =>
    let elem ← ask fun w => w.elem callLimit spread
    let params := (← getStore).positionalParams f
    for symbol in params.drop args.positional.length do
      inStore (StoreM.produce symbol elem)
    match ((← getStore).function f).vararg with
    | some symbol => inStore (StoreM.produce symbol (.listOf elem))
    | none => return ()

def bindArguments (f : FunctionId) (args : Args) : Run Unit := do
  say fun s => "binding arguments of " :: (s.functionAddress f).pieces
  bindPositional f args
  bindSpread f args
  inStore (StoreM.bindKeywords f args.keywords)
  inStore (StoreM.bindSpreadKeywords f ((args.kwarg.map Value.disjuncts).getD []))

/-- Binds the arguments of a call, and gives its value. -/
def doCall (callee : Value) (args : Args) : Run Value := do
  for f in ← callTargets callee do
    bindArguments f args
  numbered (← ask fun w => w.call callLimit callee args)

/-- Calls the getter of a property on an instance, or its setter with a value. -/
def callAccessor (accessor receiver : Value) (v : Option Value) : Run Value := do
  let results ← accessor.disjuncts.mapM fun d => do
    let s ← getStore
    -- a method gets the instance through its receiver
    let own := match d with
      | .functionRef f => if (s.function f).receiver = .unbound then [receiver] else []
      | _ => []
    doCall d (.ofPositional (own ++ v.toList))
  return .unite results

def recordArguments (callee : Value) (arguments : List (Option SymbolId)) : Run Unit := do
  if (← isRecording) && arguments.any Option.isSome then
    -- a cancelled analysis stops at the next step
    let targets ← tryCatch (callTargets callee) fun _ => return []
    let s ← getStore
    for f in targets do
      let params := (s.function f).params.drop (s.receiverCount f)
      for (param, argument) in params.zip arguments do
        match argument with
        | some symbol => record fun r => r.recordFlow symbol param.symbol
        | none => pure ()

end Run

end Surmise
