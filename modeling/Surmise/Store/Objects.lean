import Surmise.Store.Symbols
import Surmise.Traversal

/-!
# Objects of the analysed program

Making functions, classes, modules and packages, and following the links between classes.
-/

namespace Surmise

def returnName : String := "[return]"

/-- The receiver of a function with these decorators. -/
def Receiver.classify (inClass hasParams : Bool) (decorators : List String) : Receiver :=
  if !inClass || !hasParams then .unbound
  else if decorators.contains "staticmethod" then .unbound
  else if decorators.contains "classmethod" then .onClass
  else .onInstance

namespace Store

def sourceBases (s : Store) (c : ClassId) : List ClassId :=
  (Value.flatten (s.classOf c).bases).filterMap fun
    | .classRef base => some base
    | _ => none

/-- A bound on the steps of a search along the bases of classes. -/
def baseSteps (s : Store) : Nat :=
  s.classes.foldl (fun n c => n + (Value.flatten c.bases).length) 1

/-- The class and its source ancestors, each once, depth first in the order of the bases. -/
def lineage (s : Store) (c : ClassId) : List ClassId :=
  Traversal.depthFirst s.sourceBases s.baseSteps [] [c]

def subclassesOf (s : Store) (c : ClassId) : List ClassId :=
  s.subclassLinks.filterMap fun (parent, sub) => if parent = c then some sub else none

/-- The class and its known subclasses, each once, depth first in the order they became known. -/
def walkSubclasses (s : Store) (c : ClassId) : List ClassId :=
  Traversal.depthFirst s.subclassesOf (s.subclassLinks.length + 1) [] [c]

def param? (s : Store) (f : FunctionId) (name : String) : Option SymbolId :=
  ((s.function f).params.find? fun p => p.name == name).map Param.symbol

def functionAddress (s : Store) (f : FunctionId) : Address :=
  (s.table (s.function f).locals).address

def classAddress (s : Store) (c : ClassId) : Address :=
  (s.table (s.classOf c).members).address

def packageName (s : Store) (p : PackageId) : String :=
  (s.package p).dir.fileName?.getD ""

end Store

namespace StoreM

structure FunctionSpec where
  name : String
  node : Node
  origin : Origin
  params : Parameters Node
  address : Address
  parent : TableId
  receiver : Receiver
  owner : Option ClassId
  home : ModuleId

def newParams (locals : TableId) : List (Parameter Node) → StoreM (List Param)
  | [] => return []
  | p :: rest => do
    let symbol ← create locals p.name
    return ⟨p.name, symbol, p.keywordOnly⟩ :: (← newParams locals rest)

def newVararg (locals : TableId) : Option (VarParameter Node) → StoreM (Option SymbolId)
  | some p => some <$> create locals p.name
  | none => return none

/-- Makes the symbol of a `**` parameter, and the dictionary that it holds. -/
def newKwarg (locals : TableId) : Option (VarParameter Node) → StoreM (Option SymbolId × Option KwargsId)
  | some p => do
    let dict ← newKwargs
    let symbol ← create locals p.name
    produce symbol (.kwargs dict)
    return (some symbol, some dict)
  | none => return (none, none)

/-- Makes a function whose scope lies in the scope `parent`. -/
def newFunction (spec : FunctionSpec) : StoreM FunctionId := do
  let locals ← newTable spec.address (some spec.parent)
  let vararg ← newVararg locals spec.params.vararg
  let (kwarg, kwargs) ← newKwarg locals spec.params.kwarg
  let params ← newParams locals spec.params.params
  let returns ← newSymbol returnName (spec.address.child returnName) false
  let info : FunctionInfo :=
    { name := spec.name, node := spec.node, origin := spec.origin, locals, params, vararg, kwarg,
      kwargs, returns, receiver := spec.receiver, owner := spec.owner, home := spec.home }
  modifyGet fun s => (⟨s.functions.size⟩, { s with functions := s.functions.push info })

/-- Makes a class with the members that every class has. -/
def newClass (name : String) (address : Address) (moduleName : String) : StoreM ClassId := do
  let members ← newTable address none
  let id : ClassId ← modifyGet fun s =>
    (⟨s.classes.size⟩, { s with classes := s.classes.push ⟨name, members, [], none⟩ })
  putAll members
    [("__name__", .ofText name), ("__module__", .ofText moduleName), ("__doc__", .str none),
      ("__bases__", .listOf (.ofType .type)), ("__class__", .classRef id)]
  let _ ← create members "__dict__"
  let _ ← create members "__weakref__"
  return id

def modifyClass (c : ClassId) (f : ClassInfo → ClassInfo) : StoreM Unit :=
  modify fun s => { s with classes := s.classes.modify c.index f }

/-- Records a direct subclass, once. -/
def addSubclass (c sub : ClassId) : StoreM Unit :=
  modify fun s => { s with
    subclassLinks := if (c, sub) ∈ s.subclassLinks then s.subclassLinks else s.subclassLinks ++ [(c, sub)] }

/-- Makes a module whose globals lie in the scope `builtins`. -/
def newModule (name : String) (path : Path) (builtins : TableId) : StoreM ModuleId := do
  let members ← newTable (.ofFile path) (some builtins)
  putAll members
    [("__file__", .str none), ("__name__", .str none), ("__doc__", .str none), ("__package__", .str none),
      ("__builtins__", .external "builtins")]
  modifyGet fun s => (⟨s.modules.size⟩, { s with modules := s.modules.push ⟨name, path, members⟩ })

def newPackage (dir : Path) : StoreM PackageId := do
  let entries ← newTable (.ofFile dir) none
  modifyGet fun s =>
    (⟨s.packages.size⟩, { s with packages := s.packages.push ⟨dir, entries, none⟩ })

def setInit (p : PackageId) (init : Option ModuleId) : StoreM Unit :=
  modify fun s =>
    { s with packages := s.packages.modify p.index fun info => { info with init } }

def newLabelled (label : String) (members : List (String × Value)) : StoreM Value :=
  modifyGet fun s =>
    (.synthetic (.labelled label s.labelled.size), { s with labelled := s.labelled.push members })

end StoreM

end Surmise
