import Surmise.Graph.Basic
import Surmise.Json.Printer
import Surmise.Json.Reader

/-!
# Graph documents

Graphs as JSON. A record may be written as an object or as the array of its fields in order; fields
that are not known are passed over, fields that are missing have their default, and a field that is
repeated is refused. In a map a repeated key keeps its first place and its last value. A document whose
references do not all lead to a node is refused.
-/

namespace Surmise.Graph

/-! ## Writing -/

def ofTextMap (m : OrderedMap String) : Json :=
  .ofFields (m.entries.map fun (name, target) => (name, .ofText target))

def nodeToJson (node : GraphNode) : Json :=
  .ofFields [("kind", .ofText node.kind.label), ("members", ofTextMap node.members),
    ("bases", .ofTexts node.bases), ("returns", .ofOption .ofText node.returns),
    ("popularity", .ofNat node.popularity)]

def toJson (g : Graph) : Json :=
  .ofFields [("distributions", .ofFields (g.distributions.entries.map fun (top, names) => (top, .ofTexts names))),
    ("nodes", .ofFields (g.nodes.entries.map fun (path, node) => (path, nodeToJson node)))]

def print (g : Graph) : String := g.toJson.pretty

/-! ## Reading -/

/-- The fields of a record with these names, present or not, from either form of the record. -/
def record? (names : List String) : Json → Option (List (Option Json))
  | .array items =>
    if items.length ≤ names.length then
      some (items.map some ++ List.replicate (names.length - items.length) none)
    else none
  | .object fields =>
    if fields.any fun field => field.1.isNone then none
    else
      let found := names.map fun name => fields.filter fun field => field.1 == some name
      if found.any fun values => 1 < values.length then none
      else some (found.map fun values => values.head?.map Prod.snd)
  | _ => none

/-- A map whose values are read by `read`. -/
def map? {α : Type} (read : Json → Option α) : Json → Option (OrderedMap α)
  | .object fields => do
    let entries ← fields.mapM fun (name, value) => do return (← name, ← read value)
    return .ofList entries
  | _ => none

def list? {α : Type} (read : Json → Option α) : Json → Option (List α)
  | .array items => items.mapM read
  | _ => none

def optional? {α : Type} (read : Json → Option α) : Json → Option (Option α)
  | .null => some none
  | json => (read json).map some

def maxPopularity : Nat := UInt64.size - 1

def popularity? (json : Json) : Option Nat := do
  let n ← json.nat?
  if n ≤ maxPopularity then some n else none

/-- A kind by its name, or by its name as the only field of an object. -/
def kindOf? : Json → Option NodeKind
  | .string (some label) => NodeKind.ofLabel? label
  | .object [(some label, .null)] => NodeKind.ofLabel? label
  | _ => none

def fieldOr {α : Type} (read : Json → Option α) (default : α) : Option Json → Option α
  | some json => read json
  | none => some default

def readNode? (json : Json) : Option GraphNode := do
  match ← record? ["kind", "members", "bases", "returns", "popularity"] json with
  | [some kind, members, bases, returns, popularity] =>
    return {
      kind := ← kindOf? kind
      members := ← fieldOr (map? Json.text?) .empty members
      bases := ← fieldOr (list? Json.text?) [] bases
      returns := ← fieldOr (optional? Json.text?) none returns
      popularity := ← fieldOr popularity? 0 popularity }
  | _ => none

def ofJson? (json : Json) : Option Graph := do
  match ← record? ["distributions", "nodes"] json with
  | [distributions, nodes] =>
    return {
      distributions := ← fieldOr (map? (list? Json.text?)) .empty distributions
      nodes := ← fieldOr (map? readNode?) .empty nodes }
  | _ => none

/-- The graph, if all its references lead to nodes. -/
def validated (g : Graph) : Except GraphError Graph :=
  match g.dangling? with
  | some reference => .error (.dangling reference)
  | none => .ok g

def read (text : String) : Except GraphError Graph :=
  match (Json.read? text).bind ofJson? with
  | some g => g.validated
  | none => .error .malformed

end Surmise.Graph
