import Surmise.Propagation.Expression
import Surmise.Tree.Declared

/-!
# Statements

Control flow is not followed: every branch, loop body and handler is visited once in each pass and adds
to what is known.
-/

namespace Surmise

/-- What a test asserts about types. -/
inductive TypeGuard where
  | isInstance
  | isSubclass
  deriving DecidableEq, Repr

def TypeGuard.of? : Value → Option TypeGuard
  | .builtin (.function .isinstance) => some .isInstance
  | .builtin (.function .issubclass) => some .isSubclass
  | _ => none

namespace Run

/-! ## Imports -/

def importer (f : Frame) : Run Importer := do
  let s ← get
  return ⟨(s.store.module f.home).path, s.assembly.tree, s.assembly.searchPaths⟩

/-- `import a.b.c` binds `a`; with another name, that name is bound to the module. -/
def importModule (f : Frame) (item : ImportAlias) : Run Unit := do
  match item.path with
  | [] => return ()
  | root :: _ =>
    let i ← importer f
    let v ← match item.newName with
      | some _ => ask fun w => i.absolute w item.path
      | none => pure (i.root (← world) root)
    assignName f (item.newName.getD root) v (← read).options.privateImports

/-- Binds a name that a module exports to all. -/
def importExported (f : Frame) (source : Value) (name : String) : Run Unit := do
  unless name.toList.head? = some '_' do
    let symbols ← memberSymbols false source name
    let s ← getStore
    unless !symbols.isEmpty && symbols.all (fun symbol => (s.symbol symbol).isPrivate) do
      let v ← ask fun w => w.member callLimit source name
      unless v.isEmpty do
        assignName f name v false

def importMember (f : Frame) (source : Value) (item : ImportAlias) : Run Unit := do
  match item.path.getLast? with
  | none => return ()
  | some name =>
    let v ← ask fun w => w.member callLimit source name
    match item.newName with
    | some other => assignName f other v false
    | none => assignName f name v (← read).options.privateImports

def importFrom (f : Frame) (dots : Nat) (path : List String) (names : List ImportAlias)
    (wildcard : Bool) : Run Unit := do
  let i ← importer f
  let source ← ask fun w => i.resolve w dots path
  if source.isEmpty then
    for name in names.filterMap fun item => item.newName.orElse fun _ => item.path.getLast? do
      let _ ← binding f name
  else
    if wildcard then
      for name in ← ask fun w => w.dir source do
        importExported f source name
    for item in names do
      importMember f source item

end Run

namespace Evaluator

variable (ev : Evaluator)

/-! ## Assertions -/

/-- Narrows what is asserted about: a name is bound to nothing but the asserted type. -/
def narrow (f : Frame) (subject : Node) (v : Value) : Run Unit := do
  match subject with
  | .ident name =>
    let symbol ← if f.isDeclared name then Run.binding f name
      else Run.inStore (StoreM.create f.scope name)
    Run.say fun s => (s.symbol symbol).address.pieces ++ " narrowed to " :: s.pieces v
    Run.narrowTo symbol v
  | other => ev.assign f other v

/-- `assert isinstance(x, T)` and `assert issubclass(x, C)` tell what `x` is. -/
def narrowAssertion (f : Frame) (test : Node) : Run Unit := do
  match test with
  | .call function (subject :: types :: _) .. =>
    let callee ← ev.eval f function
    match callee.disjuncts.findSome? TypeGuard.of? with
    | none => return ()
    | some guard =>
      let types ← ev.eval f types
      let w ← Run.world
      let v := match guard with
        | .isInstance => w.instantiate types
        | .isSubclass => w.withSubclasses types
      unless v.isEmpty do
        ev.narrow f subject v
  | _ => return ()

/-! ## Compound statements -/

def branches (f : Frame) : List (Branch Node) → Run Unit
  | [] => return ()
  | branch :: rest => do
    let _ ← ev.eval f branch.test
    ev.block f branch.body
    branches f rest

/-- The name of a handler is bound to the instances of what it handles. -/
def handlers (f : Frame) : List (Handler Node) → Run Unit
  | [] => return ()
  | handler :: rest => do
    let type ← ev.evalOption f handler.kind
    match handler.name with
    | some target => ev.assign f target (← Run.instantiate type)
    | none => pure ()
    ev.block f handler.body
    handlers f rest

/-- The target of a `with` item is bound to what entering gives, or to the manager itself. -/
def withItems (f : Frame) : List (WithItem Node) → Run Unit
  | [] => return ()
  | item :: rest => do
    let manager ← ev.eval f item.context
    match item.target with
    | none => pure ()
    | some target =>
      let enter ← Run.ask fun w => w.member callLimit manager "__enter__"
      let entered ← Run.doCall enter {}
      ev.assign f target (if entered.isEmpty then manager else entered)
    withItems f rest

/-! ## All statements -/

/-- The effect of a statement. An expression is evaluated. -/
def execNode (f : Frame) (node : Node) : Run Unit := do
  match node with
  | .functionDef id name params _ decorators returns .. =>
    ev.functionDef f id name params decorators returns node
  | .classDef id name bases keywords body decorators _ =>
    ev.classDef f id name bases keywords body decorators
  | .assign targets value => ev.assignment f targets value
  | .annotated target hint value => ev.annotatedAssignment f target hint value
  | .augmented target op value => ev.assign f target (← ev.evalBinary f target op value)
  | .returnStmt (some value) => Run.produceReturn f (← ev.eval f value)
  | .returnStmt none => return ()
  | .importStmt names =>
    for item in names do
      Run.importModule f item
  | .importFrom dots path names wildcard => Run.importFrom f dots path names wildcard
  | .ifStmt bs otherwise =>
    ev.branches f bs
    ev.block f otherwise
  | .forStmt target iter body otherwise =>
    let iterated ← ev.eval f iter
    ev.assign f target (← Run.ask fun w => w.elem callLimit iterated)
    ev.block f body
    ev.block f otherwise
  | .whileStmt test body otherwise =>
    let _ ← ev.eval f test
    ev.block f body
    ev.block f otherwise
  | .tryStmt body hs otherwise final =>
    ev.block f body
    ev.handlers f hs
    ev.block f otherwise
    ev.block f final
  | .withStmt items body =>
    ev.withItems f items
    ev.block f body
  | .assertStmt test message =>
    ev.visit f (test :: message.toList)
    ev.narrowAssertion f test
  | .raiseStmt exception cause => ev.visit f (exception.toList ++ cause.toList)
  | .deleteStmt targets => ev.visit f targets
  | .bad pieces => ev.block f pieces
  | .module body => ev.block f body
  | .globalStmt _ | .nonlocalStmt _ | .passStmt | .breakStmt | .continueStmt => return ()
  | expression =>
    let _ ← ev.eval f expression

end Evaluator

end Surmise
