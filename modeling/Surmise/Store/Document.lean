import Surmise.Capability
import Surmise.Json.Basic
import Surmise.Store.Show

/-!
# Values and objects as documents

The JSON form of what an analysis found. Objects of the program are named by their addresses.
-/

namespace Surmise

def Receiver.label : Receiver → String
  | .unbound => "none"
  | .onInstance => "instance"
  | .onClass => "class"

namespace Store

variable (s : Store)

def showEntries (entries : List (String × Value)) : Json :=
  .array (entries.map fun entry => .ofTexts [entry.1, s.showValue entry.2])

mutual

/-- A value as an array that starts with the name of its sort. -/
def valueTree : Value → Json
  | .null => .ofTexts ["none"]
  | .bool b => .array (.ofText "bool" :: b.toList.map .bool)
  | .int n => .array (.ofText "int" :: n.toList.map .ofInt)
  | .float => .ofTexts ["float"]
  | .complex => .ofTexts ["complex"]
  | .str text => .ofTexts ("str" :: text.toList)
  | .bytes => .ofTexts ["bytes"]
  | .object => .ofTexts ["object"]
  | .list e => .array [.ofText "list", valueTree e]
  | .set e => .array [.ofText "set", valueTree e]
  | .dict k v => .array [.ofText "dict", valueTree k, valueTree v]
  | .tuple _ items => .array (.ofText "tuple" :: valueTrees items)
  | .generator e => .array [.ofText "generator", valueTree e]
  | .kwargs d => .array [.ofText "kwargs", s.showEntries (s.kwargsOf d).entries]
  | .builtin (.type t) => .ofTexts ["type", t.name]
  | .builtin (.function f) => .ofTexts ["builtin", f.name]
  | .method _ receiver name => .array [.ofText "method", valueTree receiver, .ofText name]
  | .property _ getter setter deleter =>
    .array [.ofText "property", valueTree getter, valueTree setter, valueTree deleter]
  | .super _ bases => .array (.ofText "super" :: valueTrees bases)
  | .external path => .ofTexts ["external", path]
  | .externalInstance path => .ofTexts ["external_instance", path]
  | .functionRef f => .ofTexts ["function", (s.functionAddress f).show]
  | .classRef c => .ofTexts ["class", (s.classAddress c).show]
  | .instanceOf c => .ofTexts ["instance", (s.classAddress c).show]
  | .moduleRef m => .ofTexts ["module", (s.module m).path.text]
  | .packageRef p => .ofTexts ["package", (s.package p).dir.text]
  | .synthetic synthetic => .ofTexts ["synthetic", s.showSynthetic synthetic]
  | .union alternatives => .array (.ofText "union" :: valueTrees alternatives)

def valueTrees : List Value → List Json
  | [] => []
  | v :: rest => valueTree v :: valueTrees rest

end

def valueDocument (v : Value) : Json :=
  .ofFields [("show", .ofText (s.showValue v)), ("tree", s.valueTree v)]

def symbolDocument (id : SymbolId) : Json :=
  let symbol := s.symbol id
  .ofFields [("name", .ofText symbol.name), ("at", .ofText symbol.address.show),
    ("tail", .ofText symbol.address.tail), ("file", .ofText symbol.address.file.text),
    ("private", .bool symbol.isPrivate), ("value", .ofText (s.showValue symbol.value))]

def classDocument (c : ClassId) : Json :=
  let info := s.classOf c
  .ofFields [("name", .ofText info.name), ("at", .ofText (s.classAddress c).show),
    ("bases", .ofTexts (info.bases.map s.showValue)),
    ("subclasses", .ofTexts ((s.subclassesOf c).map fun sub => (s.classAddress sub).show)),
    ("lineage", .ofTexts ((s.walkSubclasses c).map fun sub => (s.classOf sub).name)),
    ("framework", .ofOption .ofText info.framework)]

def functionDocument (f : FunctionId) : Json :=
  let info := s.function f
  let nameOf (id : SymbolId) : Json := .ofText (s.symbol id).name
  .ofFields [("name", .ofText info.name), ("at", .ofText (s.functionAddress f).show),
    ("receiver", .ofText info.receiver.label),
    ("params", .array (info.params.map fun p =>
      .array [.ofText p.name, .ofText (s.showValue (s.value p.symbol)), .bool p.keywordOnly])),
    ("vararg", .ofOption nameOf info.vararg), ("kwarg", .ofOption nameOf info.kwarg),
    ("kwargs", .ofOption (fun d => s.showEntries (s.kwargsOf d).entries) info.kwargs),
    ("returns", .ofText (s.showValue (s.value info.returns))),
    ("class", .ofOption (fun c => .ofText (s.classOf c).name) info.owner),
    ("module", .ofText (s.module info.home).name)]

def addressText (id : SymbolId) : String := (s.symbol id).address.show

def flowDocument (edges : List (SymbolId × List SymbolId)) : Json :=
  .array (edges.map fun edge =>
    .array [.ofText (s.addressText edge.1), .ofTexts (edge.2.map s.addressText)])

def recorderDocument (r : Recorder) : Json :=
  .ofFields [("empty", .bool r.isEmpty),
    ("capabilities", .array (r.attrs.map fun entry =>
      .array [.ofText (s.addressText entry.1), .ofTexts entry.2])),
    ("forward", s.flowDocument r.forward), ("backward", s.flowDocument r.backward)]

end Store

end Surmise
