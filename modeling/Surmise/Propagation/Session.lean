import Surmise.Capability
import Surmise.Policy
import Surmise.Project.Importer
import Surmise.Project.Options
import Surmise.Propagation.Trace
import Surmise.Query.Calls
import Surmise.Tree.Imports

/-!
# The state of an analysis

The files with their scopes, what has been defined, what is still to be visited, and what is known of the
values. A definition is made when it is reached first and found again by its node in every later pass, so
its symbols stay the same.
-/

namespace Surmise

structure SourceFile where
  path : Path
  tree : Node
  imports : List ImportDecl
  /-- The directory of the library that the file belongs to. -/
  libraryRoot : Option Path
  deriving Inhabited

def SourceFile.ofTree (path : Path) (tree : Node) (libraryRoot : Option Path) : SourceFile :=
  ⟨path, tree, tree.imports path.text, libraryRoot⟩

/-- The place of a definition: the text it stands in, and the number of its node. -/
structure Site where
  origin : Origin
  node : Nat
  deriving DecidableEq, Repr, Inhabited

inductive WorkItem where
  /-- A module, by the place of its file. -/
  | module (index : Nat)
  /-- The body of a function or a lambda. -/
  | function (f : FunctionId)
  deriving DecidableEq, Repr, Inhabited

/-- What an analysis has found in the files. Definitions are in the order in which they were reached. -/
structure Assembly where
  files : List SourceFile
  tree : SourceTree
  classes : List (Site × ClassId)
  functions : List (Site × FunctionId)
  lambdas : List (Site × FunctionId)
  comprehensions : List (Site × TableId)
  order : Array WorkItem
  searchPaths : List Path
  /-- The addresses that scopes have been given. -/
  reserved : List Address
  deriving Inhabited

/-- What an observer is told of. -/
inductive Notice where
  | pass (current total : Nat)
  | resolved (node : Node) (v : Value)

def Notice.isValue : Notice → Bool
  | pass _ _ => false
  | resolved _ _ => true

/--
What an observer does when it is told of something. All that it has been told of stands for its own state, the
last notice first. It may abort the handle, and it may change what a value that it is given leads to.
-/
structure Delegate where
  aborts : List Notice → Bool
  touches : List Notice → Store → Store

namespace Delegate

/-- Aborts nothing and touches nothing. -/
def idle : Delegate := ⟨fun _ => false, fun _ s => s⟩

/-- Aborts the handle at a pass, and at the value with some number. -/
def stopping (stopAtPass stopAtValue : Option Nat) : Delegate where
  aborts
    | [] => false
    | .pass current _ :: _ => stopAtPass = some current
    | .resolved _ _ :: told => stopAtValue.any fun n => n == told.countP Notice.isValue + 1
  touches _ s := s

/-- Whatever it is told of, the store stays as it is. -/
def Discreet (d : Delegate) : Prop := ∀ told s, d.touches told s = s

end Delegate

structure Session where
  store : Store
  assembly : Assembly
  /-- Kept in the last pass only. -/
  recorder : Option Recorder
  handle : CancelHandle
  trace : Trace
  /-- What the observer has been told of, the last notice first, if there is one. -/
  observer : Option (List Notice)
  /-- The symbols that assertions have narrowed, the last one first. No result depends on it. -/
  narrowed : List SymbolId
  /-- The scopes of the class bodies that have been run, the last one first. No result depends on it. -/
  bodies : List TableId
  /-- The texts that the program has evaluated, the last one first. No result depends on it. -/
  evaluated : List String
  deriving Inhabited

/-- What stays the same throughout an analysis. -/
structure Setting where
  graph : Graph
  options : Options
  policies : List ClassPolicy
  /-- The scope around every module. -/
  builtins : TableId
  delegate : Delegate
  /-- How the texts are read that the program evaluates. -/
  reader : String → Node

abbrev Run := ReaderT Setting (ExceptT AnalysisError (StateM Session))

namespace Run

def getStore : Run Store := return (← get).store

def inStore {α : Type} (act : StoreM α) : Run α :=
  modifyGet fun ⟨store, assembly, recorder, handle, trace, observer, narrowed, bodies, evaluated⟩ =>
    let (a, store) := act store
    (a, ⟨store, assembly, recorder, handle, trace, observer, narrowed, bodies, evaluated⟩)

/-- Changes the store, and may fail. -/
def inAnalysis {α : Type} (act : Analysis α) : Run α := do
  match ← inStore act.run with
  | .ok a => return a
  | .error e => throw e

def modifyAssembly (f : Assembly → Assembly) : Run Unit :=
  modify fun ⟨store, assembly, recorder, handle, trace, observer, narrowed, bodies, evaluated⟩ =>
    ⟨store, f assembly, recorder, handle, trace, observer, narrowed, bodies, evaluated⟩

def check : Run Unit := do
  match (← get).handle.check with
  | .ok _ => return ()
  | .error e => throw e

def world : Run World := do
  let s ← get
  return ⟨(← read).graph, s.store, s.handle.isCancelled⟩

def ask {α : Type} (query : World → Except AnalysisError α) : Run α := do
  match query (← world) with
  | .ok a => return a
  | .error e => throw e

/-- Gives the new parts of a value their serial numbers. -/
def numbered (v : Value) : Run Value := inStore (StoreM.numbered v)

def say (pieces : Store → List String) : Run Unit :=
  modify fun s => if s.trace.isOpen then { s with trace := s.trace.line (pieces s.store) } else s

/-- The observer is told of something, and does what it wants. -/
def tell (notice : Notice) : Run Unit := do
  let delegate := (← read).delegate
  modify fun s =>
    match s.observer with
    | none => s
    | some told =>
      let told := notice :: told
      let handle := if delegate.aborts told then s.handle.abort else s.handle
      { s with store := delegate.touches told s.store, observer := some told, handle }

def isRecording : Run Bool := return (← get).recorder.isSome

def record (f : Recorder → Recorder) : Run Unit :=
  modify fun s => { s with recorder := s.recorder.map f }

/-- The symbols of a member of a value. With `make`, missing ones are made. -/
def memberSymbols (make : Bool) (v : Value) (name : String) : Run (List SymbolId) := do
  check
  inStore (StoreM.memberSymbols (← read).graph make name [] v.disjuncts)

def write (symbol : SymbolId) (v : Value) : Run Unit := do
  inStore (StoreM.produce symbol v)
  say fun s => (s.symbol symbol).address.pieces ++ " <- " :: s.pieces v

/-- Replaces what is known of a symbol by what an assertion says of it. -/
def narrowTo (symbol : SymbolId) (v : Value) : Run Unit := do
  inStore (StoreM.put symbol v)
  modify fun s => { s with narrowed := symbol :: s.narrowed }

def openBody (address : Address) (parent : TableId) : Run TableId := do
  let table ← inStore (StoreM.newTable address (some parent))
  modify fun s => { s with bodies := table :: s.bodies }
  return table

def noteText (text : String) : Run Unit :=
  modify fun s => { s with evaluated := text :: s.evaluated }

end Run

end Surmise
