import Surmise.Query.Members

/-!
# Class policies

How the body of a class becomes its member table. By default the members are the bindings of the body;
a policy for a framework adds the members that its metaclass makes when the program runs.
-/

namespace Surmise

abbrev Analysis := ExceptT AnalysisError StoreM

structure ClassPolicy where
  /-- Recorded on the classes that the policy builds. -/
  name : String
  /-- The policy is for classes with these bases. -/
  applies : World → List Value → Bool
  /-- Makes the members of a class from the scope of its body. -/
  build : Graph → ClassId → TableId → Analysis Unit

/-- Joins the value of a binding of a class body into the member of the same name. -/
def mergeMember (members : TableId) (binding : SymbolId) : Analysis Unit := do
  let body := (← get).symbol binding
  let member ← StoreM.create members body.name
  let address := ((← get).symbol member).address
  if address == body.address then StoreM.produce member body.value
  else throw (.invariantViolation
    ("class member " ++ address.show ++ " does not match class-body binding " ++ body.address.show))

/-- Joins the values of all bindings of a class body into the members of the class. -/
def mergeMembers (c : ClassId) (body : TableId) : Analysis Unit := do
  let members := ((← get).classOf c).members
  for binding in (← get).symbolsOf body do
    mergeMember members binding

namespace ClassPolicy

/-- The members of a class are the bindings of its body. -/
def plain : ClassPolicy where
  name := "default"
  applies _ _ := true
  build _ c body := mergeMembers c body

/-! ## Models -/

/-- The graph paths of the base of all models. -/
def modelBases : List String := ["django.db.models.Model", "django.db.models.base.Model"]

def modelExceptions : List (String × String) :=
  [("DoesNotExist", "django.core.exceptions.ObjectDoesNotExist"),
    ("MultipleObjectsReturned", "django.core.exceptions.MultipleObjectsReturned")]

def isModel (g : Graph) (path : String) : Bool :=
  (g.baseOrder path).any modelBases.contains

/-- The type of a model's exception, or that of all exceptions. -/
def modelException (w : World) (path : String) : Value :=
  let declared := w.externalValue path
  if declared.isEmpty then w.externalValue "builtins.Exception" else declared

/--
A model class gets a manager whose query methods give query sets of the model, the exceptions of its
queries, and the fields `pk` and `id`.
-/
def orm : ClassPolicy where
  name := "orm"
  applies w bases :=
    (Value.flatten bases).any fun
      | .external path => isModel w.graph path
      | .classRef c => (w.store.classOf c).framework == some "orm"
      | _ => false
  build graph c body := do
    mergeMembers c body
    let members := ((← get).classOf c).members
    StoreM.produceIn members "objects" (.synthetic (.orm .manager c))
    for (name, path) in modelExceptions do
      StoreM.produceIn members name (modelException ⟨graph, ← get, false⟩ path)
    for field in ["pk", "id"] do
      StoreM.produceIn members field (.int none)

/-- The policies that are asked unless others are given. -/
def standard : List ClassPolicy := [orm]

/--
A policy of an extension: the classes below a source class named `base` get a member that is true.
-/
def marking (name base member : String) : ClassPolicy where
  name
  applies w bases :=
    (Value.flatten bases).any fun
      | .classRef c => (w.store.classOf c).name == base
      | _ => false
  build _ c body := do
    mergeMembers c body
    StoreM.produceIn ((← get).classOf c).members member (.ofBool true)

end ClassPolicy

/-- Builds a class by the first policy that applies to it, and records the policy; or by default. -/
def applyPolicies (graph : Graph) (policies : List ClassPolicy) (c : ClassId) (body : TableId) :
    Analysis Unit := do
  let w : World := ⟨graph, ← get, false⟩
  match policies.find? fun policy => policy.applies w (w.store.classOf c).bases with
  | some policy =>
    StoreM.modifyClass c fun info => { info with framework := some policy.name }
    policy.build graph c body
  | none => ClassPolicy.plain.build graph c body

end Surmise
