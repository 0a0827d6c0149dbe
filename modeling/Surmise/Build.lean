import Surmise.Project.ModuleOrder
import Surmise.Propagation.Body
import Surmise.Surface.Lowering

/-!
# Building an assembly

Files are added, ordered by their imports, and visited pass after pass. What is defined during a pass is
visited in the same pass.
-/

namespace Surmise

structure Assembler where
  setting : Setting
  session : Session

namespace StoreM

def bindBuiltins (graph : Graph) (table : TableId) : List String → StoreM Unit
  | [] => return ()
  | name :: rest => do
    match graph.member? "builtins" name with
    | some path => produceIn table name (World.externalValue ⟨graph, .empty, false⟩ path)
    | none => pure ()
    bindBuiltins graph table rest

/-- The scope around every module: the builtins of the graph, and over them the native ones. -/
def builtinScope (graph : Graph) : StoreM TableId := do
  let table ← newTable ⟨.empty, "builtins"⟩ none
  bindBuiltins graph table (graph.children "builtins")
  putAll table Native.overrides
  return table

end StoreM

def Assembly.ofPaths (searchPaths : List Path) : Assembly :=
  { files := [], tree := .empty, classes := [], functions := [], lambdas := [], comprehensions := [],
    order := #[], searchPaths, reserved := [] }

namespace Assembler

def new (graph : Graph) (options : Options) (policies : List ClassPolicy) (trace : Trace)
    (delegate : Option Delegate) : Assembler :=
  let made := StoreM.builtinScope graph .empty
  { setting := ⟨graph, options, policies, made.1, delegate.getD .idle, Node.ofText⟩
    session :=
      { store := made.2, assembly := .ofPaths options.searchPaths, recorder := none, handle := .new, trace,
        observer := delegate.map fun _ => [], narrowed := [], bodies := [], evaluated := [] } }

end Assembler

namespace Run

/-- Adds a file; a second one with the same path is ignored. -/
def addFile (file : SourceFile) : Run Unit := do
  match file.libraryRoot with
  | some root => modifyAssembly fun a =>
      if a.searchPaths.any (· == root) then a else { a with searchPaths := a.searchPaths ++ [root] }
  | none => pure ()
  let tree := (← get).assembly.tree
  unless tree.contains file.path do
    let m ← inStore (StoreM.newModule file.path.moduleName file.path (← read).builtins)
    let tree ← inStore (tree.addFile file.path m)
    modifyAssembly fun a => { a with tree, files := a.files ++ [file] }

/-- The files whose modules are not on the list of what is visited. -/
def unscheduled (a : Assembly) : List (Path × List ImportDecl) :=
  (a.files.zipIdx.filter fun (_, index) => !a.order.contains (.module index)).map fun (file, _) =>
    (file.path, file.imports)

def schedule (path : Path) : Run Unit := do
  match (← get).assembly.files.findIdx? fun file => file.path == path with
  | some index =>
    say fun _ => ["bootstrap: ", path.text]
    modifyAssembly fun a => { a with order := a.order.push (.module index) }
  | none => return ()

/-- Puts the modules that are not yet on the list there, in the order of their imports. -/
def scheduleModules : Run Unit := do
  let a := (← get).assembly
  for path in moduleOrder (unscheduled a) a.searchPaths do
    schedule path

/-- Visits everything on the list from a place on, also what is added meanwhile. -/
def visitItems (ev : Evaluator) : (steps index : Nat) → Run Unit
  | 0, _ => throw .exhausted
  | steps + 1, index => do
    match (← get).assembly.order[index]? with
    | none => return ()
    | some item =>
      check
      visitItem ev item
      visitItems ev steps (index + 1)

/-- One pass over everything; capabilities are recorded in the last one only. -/
def pass (steps current total : Nat) : Run Unit := do
  say fun _ => ["### PROPAGATION PASS ", toString current]
  tell (.pass current total)
  let recorder := if current = total && (← read).options.useCapabilities then some Recorder.empty else none
  modify fun s => { s with recorder }
  visitItems (.ofDepth steps) steps 0

def passes (steps total : Nat) : (left : Nat) → Run Unit
  | 0 => return ()
  | left + 1 => do
    pass steps (total - left) total
    passes steps total left

/-- Narrows ambiguous values by what was recorded. -/
def refine : Run Unit := do
  match (← get).recorder with
  | some recorder =>
    let cancelled := (← get).handle.isCancelled
    let graph := (← read).graph
    let _ ← inAnalysis (refineSymbols graph cancelled recorder.attrs 0)
  | none => return ()

/--
Runs all passes. A pass visits fewer than `steps` items, and what it evaluates is nested at most `steps`
deep; a program that needs more exhausts the analysis.
-/
def build (steps : Nat) (handle : CancelHandle) : Run Unit := do
  let options := (← read).options
  match options.validate with
  | .error e => throw (.invalidOptions e.message)
  | .ok _ =>
    match handle.check with
    | .error e => throw e
    | .ok _ =>
      modify fun s => { s with handle }
      scheduleModules
      passes steps options.passes options.passes
      refine

end Run

namespace Assembler

def perform {α : Type} (act : Run α) (a : Assembler) : Except AnalysisError α × Assembler :=
  let (result, session) := (act.run a.setting).run a.session
  (result, ⟨a.setting, session⟩)

def addFile (file : SourceFile) (a : Assembler) : Assembler := (a.perform (Run.addFile file)).2

/-- The steps that an analysis is allowed, more than any program of usual size takes. -/
def maxSteps : Nat := 100000

def build (handle : CancelHandle) (a : Assembler) : Except AnalysisError Unit × Assembler :=
  a.perform (Run.build maxSteps handle)

end Assembler

end Surmise
