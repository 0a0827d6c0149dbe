import Surmise.Query.Basic
import Surmise.Query.Native
import Surmise.Query.Orm

/-!
# Members of values

Resolving a name on a value. A class is searched before its bases, and these in the order they are
declared; an external type is searched breadth first along its bases. Properties are given as they are
found: to apply a getter takes a call, which is not a query.
-/

namespace Surmise.World

variable (w : World)

/-! ## External types -/

/-- An instance of the graph type at a path. -/
def externalInstance (path : String) : Value :=
  (Native.instanceOfPath? path).getD (.externalInstance path)

def externalValue (path : String) : Value :=
  match w.graph.kind? path with
  | some .value =>
    match w.graph.returnsOf path with
    | some type => externalInstance type
    | none => .object
  | some _ => (Native.ofPath? path).getD (.external path)
  | none => .empty

/-- What a path itself has under a name: a member in the graph, or one of its native instance. -/
def ownExternalMember? (name path : String) : Option Value :=
  match w.graph.member? path name with
  | some target => some (w.externalValue target)
  | none =>
    match Native.instanceOfPath? path with
    | some native => if (Native.member native name).isEmpty then none else some (Native.member native name)
    | none => none

/-- A member of a graph path, from the nearest of its bases that has one. -/
def externalMember (path name : String) : Value :=
  ((w.graph.baseOrder path).findSome? (w.ownExternalMember? name)).getD .empty

/-! ## Source classes -/

/-- The member that a class itself has, if its value is known. -/
def ownMember? (c : ClassId) (name : String) : Option Value :=
  let v := w.store.valueIn (w.store.classOf c).members name
  if v.isEmpty then none else some v

/-- What a base that is no source class gives. -/
def foreignMember (name : String) : Value → Value
  | .external path => w.externalMember path name
  | .builtin (.type t) => Native.member t.anInstance name
  | _ => .empty

/-- Tries the values one after another, passing the visited classes on, until one gives something. -/
def firstFound (search : List ClassId → Value → Except AnalysisError (List ClassId × Value)) :
    List ClassId → List Value → Except AnalysisError (List ClassId × Value)
  | visited, [] => .ok (visited, .empty)
  | visited, v :: rest => do
    let (visited, found) ← search visited v
    if found.isEmpty then firstFound search visited rest else return (visited, found)

/--
A member of a class or of the bases that are not visited yet, and what has been visited then. Going down
to the bases takes one unit of the budget.
-/
def classMemberFrom (name : String) :
    (budget : Nat) → List ClassId → ClassId → Except AnalysisError (List ClassId × Value)
  | budget, visited, c => do
    if c ∈ visited then return (visited, .empty)
    match w.ownMember? c name with
    | some v => return (c :: visited, v)
    | none =>
      w.check
      match budget with
      | 0 => return (c :: visited, .empty)
      | budget + 1 =>
        firstFound (fun visited base =>
          match base with
          | .classRef parent => classMemberFrom name budget visited parent
          | other => return (visited, w.foreignMember name other))
          (c :: visited) (Value.flatten (w.store.classOf c).bases)

def classMember (budget : Nat) (c : ClassId) (name : String) : Outcome :=
  return (← w.classMemberFrom name budget [] c).2

/-- What a base gives, be it a source class or not. -/
def baseMember (budget : Nat) (name : String) : Value → Outcome
  | .classRef c => w.classMember budget c name
  | other => return w.foreignMember name other

/-! ## Any value -/

/-- The first answer that is not empty. -/
def firstOutcome (f : Value → Outcome) : List Value → Outcome
  | [] => return .empty
  | v :: rest => do
    let found ← f v
    if found.isEmpty then firstOutcome f rest else return found

def packageMember (p : PackageId) (name : String) : Value :=
  let info := w.store.package p
  let own := match info.init with
    | some init => w.store.valueIn (w.store.module init).members name
    | none => .empty
  if own.isEmpty then w.store.valueIn info.entries name else own

def functionMember (f : FunctionId) (name : String) : Value :=
  if ["__name__", "__qualname__"].contains name then .ofText (w.store.function f).name
  else if ["__doc__", "__module__"].contains name then .str none
  else if name = "__dict__" then .dictOf (.str none) .empty
  else .empty

def memberOf (budget : Nat) (name : String) : Value → Outcome
  | .instanceOf c =>
    if name = "__class__" then return .classRef c
    else if name = "__dict__" then return .dictOf (.str none) .empty
    else w.classMember budget c name
  | .classRef c =>
    if name = "__mro__" then return .tupleOf [.ofType .type]
    else if name = "__subclasses__" then return .methodOf (.classRef c) name
    else w.classMember budget c name
  | .moduleRef m => return w.store.valueIn (w.store.module m).members name
  | .packageRef p => return w.packageMember p name
  | .functionRef f => return w.functionMember f name
  | .external path | .externalInstance path => return w.externalMember path name
  | .super _ bases => firstOutcome (w.baseMember budget name) bases
  | .property serial g s d =>
    return if ["setter", "getter", "deleter"].contains name then .methodOf (.property serial g s d) name
      else if name = "fget" then g
      else if name = "fset" then s
      else if name = "fdel" then d
      else .empty
  | .builtin (.type t) =>
    return if name = "__name__" then .ofText t.name
      else if name = "fromkeys" ∧ t = .dict then .methodOf t.anInstance name
      else .empty
  | .synthetic s => return w.store.syntheticMember name s
  | other => return Native.member other name

/-- A member of every alternative of a value. -/
def member (budget : Nat) (v : Value) (name : String) : Outcome := do
  w.check
  match budget with
  | 0 => return .empty
  | budget + 1 => overDisjuncts v (w.memberOf budget name)

/-! ## Symbols -/

/--
The symbol of a class member, found depth first along the source bases. An external base ends the
search in its class. `steps` bounds the length of the search; the rest of it is given back.
-/
def classSymbolFrom (name : String) :
    (steps : Nat) → List ClassId → ClassId → List ClassId × Option SymbolId
  | 0, visited, _ => (visited, none)
  | steps + 1, visited, c =>
    if c ∈ visited then (visited, none)
    else match w.store.get? (w.store.classOf c).members name with
      | some symbol => (c :: visited, some symbol)
      | none => search (classSymbolFrom name steps) (c :: visited)
          (Value.flatten (w.store.classOf c).bases)
where
  search (next : List ClassId → ClassId → List ClassId × Option SymbolId) :
      List ClassId → List Value → List ClassId × Option SymbolId
    | visited, [] => (visited, none)
    | visited, .classRef parent :: rest =>
      match next visited parent with
      | (visited, some symbol) => (visited, some symbol)
      | (visited, none) => search next visited rest
    | visited, .external _ :: _ => (visited, none)
    | visited, _ :: rest => search next visited rest

def classSymbol? (c : ClassId) (name : String) : Option SymbolId :=
  (w.classSymbolFrom name (w.store.classes.size + 1) [] c).2

/-- The symbol of a member of one alternative, without making any. -/
def memberSymbol? (name : String) : Value → Option SymbolId
  | .instanceOf c | .classRef c => w.classSymbol? c name
  | .moduleRef m => w.store.get? (w.store.module m).members name
  | .packageRef p =>
    let info := w.store.package p
    match info.init with
    | some init =>
      (w.store.get? (w.store.module init).members name).orElse fun _ => w.store.get? info.entries name
    | none => w.store.get? info.entries name
  | _ => none

/-- The table in which a missing member of an alternative is made. -/
def memberTable? : Value → Option TableId
  | .instanceOf c | .classRef c => some (w.store.classOf c).members
  | .moduleRef m => some (w.store.module m).members
  | .packageRef p => (w.store.package p).init.map fun init => (w.store.module init).members
  | _ => none

/-! ## Lists of names -/

def distinct (names : List String) : List String :=
  names.foldl (fun seen name => if seen.contains name then seen else seen ++ [name]) []

def namesOf : Value → List String
  | .moduleRef m => w.store.names (w.store.module m).members
  | .packageRef p =>
    let info := w.store.package p
    (match info.init with
      | some init => w.store.names (w.store.module init).members
      | none => []) ++ w.store.names info.entries
  | .classRef c | .instanceOf c =>
    (w.store.lineage c).flatMap fun c => w.store.names (w.store.classOf c).members
  | .external path | .externalInstance path => (w.graph.baseOrder path).flatMap w.graph.children
  | .synthetic s => w.store.syntheticNames s
  | other => Native.memberNames other

def dir (v : Value) : Except AnalysisError (List String) := do
  w.check
  return distinct (v.disjuncts.flatMap w.namesOf)

/-- A base that is no source class declares the name. -/
def foreignHas (name : String) : Value → Bool
  | .external path => !(w.externalMember path name).isEmpty
  | .builtin (.type t) => (Native.memberNames t.anInstance).contains name
  | _ => false

def classHas (c : ClassId) (name : String) : Bool :=
  ((w.store.lineage c).any fun c => (w.store.get? (w.store.classOf c).members name).isSome) ||
    (w.store.lineage c).any fun c => (Value.flatten (w.store.classOf c).bases).any (w.foreignHas name)

/-- A single alternative supports a name. A declared member counts also while it has no value. -/
def supports (name : String) : Value → Bool
  | .classRef c | .instanceOf c => w.classHas c name
  | .moduleRef m => (w.store.get? (w.store.module m).members name).isSome
  | .packageRef p =>
    let info := w.store.package p
    (w.store.get? info.entries name).isSome ||
      match info.init with
      | some init => (w.store.get? (w.store.module init).members name).isSome
      | none => false
  | .external path | .externalInstance path => !(w.externalMember path name).isEmpty
  | .synthetic s => (w.store.syntheticNames s).contains name
  | .functionRef _ => ["__name__", "__qualname__", "__doc__", "__module__", "__dict__"].contains name
  | other => (Native.memberNames other).contains name

def hasMember (v : Value) (name : String) : Except AnalysisError Bool := do
  w.check
  return w.supports name v

end Surmise.World

namespace Surmise.StoreM

def addSymbol (symbols : List SymbolId) (symbol : SymbolId) : List SymbolId :=
  if symbol ∈ symbols then symbols else symbols ++ [symbol]

/-- The member symbol of an alternative, made in the table for it if that is asked for. -/
def madeSymbol (make : Bool) (name : String) (table? : Option TableId) (found : Option SymbolId) :
    StoreM (Option SymbolId) :=
  match make, table? with
  | true, some table => some <$> create table name
  | _, _ => return found

/--
The symbol of a member of one alternative; with `make`, a missing one is made. A member of a package is
made in its `__init__` module also if the package has an entry of that name.
-/
def memberSymbol (graph : Graph) (make : Bool) (name : String) (v : Value) :
    StoreM (Option SymbolId) := do
  let w : World := ⟨graph, ← get, false⟩
  match v, w.memberSymbol? name v with
  | .packageRef _, found => madeSymbol make name (w.memberTable? v) found
  | _, some symbol => return some symbol
  | _, none => madeSymbol make name (w.memberTable? v) none

/-- The symbols of a member of all alternatives, each once. -/
def memberSymbols (graph : Graph) (make : Bool) (name : String) :
    List SymbolId → List Value → StoreM (List SymbolId)
  | symbols, [] => return symbols
  | symbols, v :: rest => do
    match ← memberSymbol graph make name v with
    | some symbol => memberSymbols graph make name (addSymbol symbols symbol) rest
    | none => memberSymbols graph make name symbols rest

end Surmise.StoreM
