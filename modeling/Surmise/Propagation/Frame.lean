import Surmise.Propagation.Session

/-!
# Scopes

Where a body is analysed, and how its names are found and bound.
-/

namespace Surmise

/-- The body that is being analysed. -/
structure Frame where
  home : ModuleId
  /-- The table that bindings of the body are written to. -/
  scope : TableId
  /-- The table around functions that are defined in the body. Only a class body does not lend its own. -/
  inherited : TableId
  function : Option FunctionId
  owner : Option ClassId
  globals : List String
  nonlocals : List String
  /-- The text that the body stands in. -/
  origin : Origin
  deriving Inhabited

namespace Frame

def body (home : ModuleId) (scope : TableId) (function : Option FunctionId) (origin : Origin) : Frame :=
  ⟨home, scope, scope, function, none, [], [], origin⟩

def inner (f : Frame) (scope inherited : TableId) (owner : Option ClassId) : Frame :=
  ⟨f.home, scope, inherited, none, owner, [], [], f.origin⟩

variable (f : Frame)

def site (node : Nat) : Site := ⟨f.origin, node⟩

def isDeclared (name : String) : Bool := f.globals.contains name || f.nonlocals.contains name

def lookup? (s : Store) (name : String) : Option SymbolId :=
  if f.globals.contains name then s.lookup? (s.module f.home).members name else s.lookup? f.scope name

def valueOf (s : Store) (name : String) : Value :=
  match f.lookup? s name with
  | some symbol => s.value symbol
  | none => .empty

def symbolOf? (s : Store) (node : Node) : Option SymbolId := node.name?.bind (f.lookup? s)

end Frame

def Store.isBuiltin (s : Store) (builtins : TableId) (symbol : SymbolId) : Bool :=
  s.get? builtins (s.symbol symbol).name == some symbol

namespace Run

/-- The symbol that a name refers to, unless it is builtin. -/
def lookupBinding? (f : Frame) (name : String) : Run (Option SymbolId) := do
  let s ← getStore
  let builtins := (← read).builtins
  return (f.lookup? s name).filter fun symbol => !s.isBuiltin builtins symbol

/-- The symbol around the scope that a nonlocal name refers to. -/
def enclosing? (f : Frame) (name : String) : Run (Option SymbolId) := do
  let s ← getStore
  let builtins := (← read).builtins
  let around := (s.table f.scope).parent.bind fun parent => s.lookup? parent name
  return around.filter fun symbol => !s.isBuiltin builtins symbol

/-- The symbol that a binding of a name is written to. -/
def binding (f : Frame) (name : String) : Run SymbolId := do
  if f.globals.contains name then
    inStore (StoreM.create ((← getStore).module f.home).members name)
  else
    let around ← if f.nonlocals.contains name then enclosing? f name else pure none
    match around with
    | some symbol => return symbol
    | none => inStore (StoreM.create f.scope name)

/-- Binds a name to a value, beside what it is bound to already. -/
def assignName (f : Frame) (name : String) (v : Value) (isPrivate : Bool) : Run Unit := do
  let symbol ← if f.isDeclared name then binding f name
    else inStore (StoreM.createPrivate f.scope name isPrivate)
  inStore (StoreM.producePrivate symbol v isPrivate)
  say fun s => (s.symbol symbol).address.pieces ++ " <- " :: s.pieces v

def produceReturn (f : Frame) (v : Value) : Run Unit := do
  match f.function with
  | some function => write ((← getStore).function function).returns v
  | none => return ()

def recordMember (f : Frame) (object : Node) (name : String) : Run Unit := do
  if ← isRecording then
    match f.symbolOf? (← getStore) object with
    | some symbol => record fun r => r.recordAttr symbol name
    | none => return ()

end Run

end Surmise
