import Surmise.Store.Objects

/-!
# Values of class policies

Managers, query sets and query methods of a model class, and values that are known only by a label.
-/

namespace Surmise

namespace Orm

/-- The query methods that give another query set. -/
def querySetMethods : List String :=
  ["all", "filter", "exclude", "order_by", "select_related", "prefetch_related", "distinct", "none",
    "annotate", "using", "reverse"]

/-- The query methods that give one instance of the model. -/
def instanceMethods : List String := ["get", "create", "first", "last", "latest", "earliest"]

def otherMethods : List String :=
  ["count", "exists", "update", "delete", "get_or_create", "update_or_create", "values"]

def methods : List String := querySetMethods ++ instanceMethods ++ otherMethods

def callMethod (model : ClassId) (name : String) : Value :=
  if querySetMethods.contains name then .synthetic (.orm .querySet model)
  else if instanceMethods.contains name then .instanceOf model
  else match name with
    | "count" | "update" => .int none
    | "exists" => .bool none
    | "delete" => .tupleOf [.int none, .dictOf (.str none) (.int none)]
    | "get_or_create" | "update_or_create" => .tupleOf [.instanceOf model, .bool none]
    | "values" => .listOf (.dictOf (.str none) .empty)
    | _ => .empty

end Orm

namespace Store

def syntheticMember (s : Store) (name : String) : Synthetic → Value
  | .labelled _ index =>
    match (s.labelledMembers index).find? fun entry => entry.1 == name with
    | some entry => entry.2
    | none => .empty
  | .orm (.method _) _ => .empty
  | .orm _ model =>
    if name = "model" then .classRef model
    else if Orm.methods.contains name then .synthetic (.orm (.method name) model)
    else .empty

def syntheticNames (s : Store) : Synthetic → List String
  | .labelled _ index => (s.labelledMembers index).map Prod.fst
  | .orm (.method _) _ => []
  | .orm _ _ => Orm.methods ++ ["model"]

end Store

namespace Synthetic

def call : Synthetic → Value
  | .orm (.method name) model => Orm.callMethod model name
  | _ => .empty

/-- What iterating over the value, or indexing into it, gives. -/
def elem : Synthetic → Value
  | .orm .querySet model => .instanceOf model
  | _ => .empty

/-- The text that tells a labelled value from others. -/
def labelKey (label : String) : String := "opaque:" ++ label

end Synthetic

end Surmise
