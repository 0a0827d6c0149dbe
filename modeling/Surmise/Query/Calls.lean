import Surmise.Query.Members

/-!
# Calls, elements and subscripts

What calling a value gives, what iterating over it gives, and what indexing into it gives. These three
refer to each other; each step down takes one unit of the call budget, and a query without budget knows
nothing. Binding the arguments of a call to the parameters of a function is no query: a function gives
what it is known to return.
-/

namespace Surmise

/-- The queries that others are built from, with some budget. -/
structure Queries where
  member : Value → String → Outcome
  classMember : ClassId → String → Outcome
  call : Value → Args → Outcome
  elem : Value → Outcome
  index : Value → Value → Outcome

namespace Queries

variable (q : Queries)

/-! ## Constructors -/

def dictOfArg (args : Args) : Outcome := do
  match args.get 0 with
  | .dict k v => return .dict k v
  | first =>
    if args.positional.isEmpty then return .empty
    let pair ← q.elem first
    let key ← q.index pair (.ofInt 0)
    let value ← q.index pair (.ofInt 1)
    return .dictOf key value

def construct (t : BuiltinType) (args : Args) : Outcome := do
  let first := args.get 0
  match t with
  | .type => return if args.positional.length = 1 then Native.typeOf first else .ofType .type
  | .list => if args.positional.isEmpty then return .listOf .empty else return .listOf (← q.elem first)
  | .set => if args.positional.isEmpty then return .setOf .empty else return .setOf (← q.elem first)
  | .tuple =>
    match first with
    | .tuple serial items => return .tuple serial items
    | _ =>
      if args.positional.isEmpty then return .tupleOf []
      else return .tupleOf [← q.elem first]
  | .dict =>
    let named := if args.keywords.isEmpty then .empty
      else .dictOf (.str none) (.unite (args.keywords.map fun entry => entry.2.widen))
    let built := Value.unite [← q.dictOfArg args, named]
    return if built.isEmpty then .dictOf .empty .empty else built
  | .property => return .propertyOf (args.arg 0 "fget") (args.arg 1 "fset") (args.arg 2 "fdel")
  | .super => return .empty
  | other => return other.anInstance

/-! ## Functions -/

def callFunction (f : BuiltinFunction) (args : Args) : Outcome := do
  let first := args.get 0
  match f with
  | .len | .hash | .id | .ord | .round => return .int none
  | .range => return .listOf (.int none)
  | .abs | .pow => return .unite [.int none, .float]
  | .dir => return .listOf (.str none)
  | .globals | .vars => return .dictOf (.str none) .empty
  | .enumerate => return .listOf (.tupleOf [.int none, ← q.elem first])
  | .zip => return .listOf (.tupleOf (← args.positional.mapM q.elem))
  | .sorted | .reversed => return .listOf (← q.elem first)
  | .iter => return .generatorOf (← q.elem first)
  | .next => return .unite [← q.elem first, args.get 1]
  | .min | .max =>
    let candidates ←
      if args.positional.length = 1 then q.elem first else pure (.unite args.positional)
    return .unite [candidates, (args.keyword? "default").getD .empty]
  | .sum =>
    let summed := (← q.elem first).widen
    return if summed.isEmpty then .int none else summed
  | .map => return .listOf (← q.call first (.ofPositional (← (args.positional.drop 1).mapM q.elem)))
  | .filter => return .listOf (← q.elem (args.get 1))
  | .getattr =>
    let found ← match (args.get 1).text? with
      | some name => q.member first name
      | none => pure .empty
    return .unite [found, args.get 2]
  | .isinstance | .issubclass | .callable | .hasattr | .any | .all => return .bool none
  | .divmod => return .tupleOf [.int none, .int none]
  | .repr | .chr | .input => return .str none
  | .eval => return .empty

/-! ## Methods -/

def callStr (name : String) : Value :=
  if ["count", "find", "index", "rfind", "rindex"].contains name then .int none
  else if name = "encode" then .bytes
  else if ["partition", "rpartition"].contains name then .tupleOf [.str none, .str none, .str none]
  else if ["split", "rsplit", "splitlines"].contains name then .listOf (.str none)
  else if "is".toList.isPrefixOf name.toList || name = "endswith" || name = "startswith" then .bool none
  else .str none

def callBytes (name : String) : Value :=
  if ["count", "find"].contains name then .int none
  else if ["decode", "hex"].contains name then .str none
  else if ["endswith", "startswith"].contains name then .bool none
  else if name = "split" then .listOf .bytes
  else .bytes

def callList (elem : Value) (name : String) : Value :=
  if name = "copy" then .list elem
  else if ["count", "index"].contains name then .int none
  else if name = "pop" then elem
  else .null

def callDict (key value : Value) (name : String) (args : Args) : Value :=
  match name with
  | "get" => .unite [value, (args.positional[1]?).getD .null]
  | "items" => .listOf (.tupleOf [key, value])
  | "keys" => .listOf key
  | "values" => .listOf value
  | "pop" | "setdefault" => .unite [value, args.get 1]
  | "popitem" => .tupleOf [key, value]
  | "copy" | "fromkeys" => .dict key value
  | _ => .null

def callKwargs (s : Store) (dict : KwargsId) (name : String) (args : Args) : Value :=
  let values := s.kwargsValues dict
  match name with
  | "get" =>
    match (args.get 0).text? with
    | some key => .unite [((s.kwargsOf dict).get? key).getD .empty, args.get 1]
    | none => .unite [values, args.get 1]
  | "items" => .listOf (.tupleOf [.str none, values])
  | "keys" => .listOf (.str none)
  | "values" => .listOf values
  | "pop" | "setdefault" => .unite [values, args.get 1]
  | "popitem" => .tupleOf [.str none, values]
  | "copy" => .kwargs dict
  | _ => .null

def callSet (elem : Value) (name : String) (args : Args) : Outcome := do
  if ["isdisjoint", "issubset", "issuperset"].contains name then return .bool none
  else if name = "pop" then return elem
  else if ["copy", "difference", "intersection", "symmetric_difference"].contains name then
    return .set elem
  else if name = "union" then return .unite [.set elem, .setOf (← q.elem (args.get 0))]
  else return .null

def callNumber (name : String) : Value :=
  if name = "to_bytes" then .bytes
  else if name = "as_integer_ratio" then .tupleOf [.int none, .int none]
  else .int none

def callFloat (name : String) : Value :=
  if name = "hex" then .str none
  else if name = "is_integer" then .bool none
  else if name = "as_integer_ratio" then .tupleOf [.int none, .int none]
  else .float

def callProperty (g s d : Value) (name : String) (args : Args) : Value :=
  match name with
  | "setter" => .propertyOf g (args.get 0) d
  | "getter" => .propertyOf (args.get 0) s d
  | "deleter" => .propertyOf g s (args.get 0)
  | _ => .empty

def callGenerator (elem : Value) (name : String) : Value :=
  if name = "close" then .null
  else if name = "__iter__" then .generator elem
  else elem

def callObject (name : String) : Value :=
  if ["__repr__", "__str__"].contains name then .str none
  else if name = "__eq__" then .bool none
  else if name = "__hash__" then .int none
  else .null

def callMethod (s : Store) (receiver : Value) (name : String) (args : Args) : Outcome :=
  match receiver with
  | .classRef c =>
    return if name = "__subclasses__" then
        .listOf (.unite ((s.subclassesOf c).map .classRef))
      else .empty
  | .str _ => return callStr name
  | .bytes => return callBytes name
  | .list e => return callList e name
  | .dict k v => return callDict k v name args
  | .kwargs dict => return callKwargs s dict name args
  | .set e => q.callSet e name args
  | .tuple .. => return .int none
  | .int _ | .bool _ => return callNumber name
  | .float => return callFloat name
  | .complex => return .complex
  | .property _ g s d => return callProperty g s d name args
  | .generator e => return callGenerator e name
  | .object => return callObject name
  | _ => return .empty

end Queries

namespace World

variable (w : World)

def callExternal (path : String) : Value :=
  match w.graph.kind? path with
  | some .type => externalInstance path
  | some .function =>
    match w.graph.returnsOf path with
    | some type => externalInstance type
    | none => .empty
  | _ => .empty

def callOne (q : Queries) (args : Args) : Value → Outcome
  | .functionRef f => return w.store.value (w.store.function f).returns
  | .classRef c => return .instanceOf c
  | .builtin (.type t) => q.construct t args
  | .builtin (.function f) => q.callFunction f args
  | .method _ receiver name => q.callMethod w.store receiver name args
  | .external path => return w.callExternal path
  | .instanceOf c => do q.call (← q.classMember c "__call__") args
  | .externalInstance path => q.call (w.externalMember path "__call__") args
  | .synthetic s => return s.call
  | _ => return .empty

def indexTuple (items : List Value) (key : Value) : Value :=
  match key.int? with
  | some n => if 0 ≤ n ∧ n.toNat < items.length then (items[n.toNat]?).getD .empty else .unite items
  | none => .unite items

def indexKwargs (dict : KwargsId) (key : Value) : Value :=
  match key.text? with
  | some name => ((w.store.kwargsOf dict).get? name).getD .empty
  | none => w.store.kwargsValues dict

def indexOne (q : Queries) (key : Value) : Value → Outcome
  | .str _ => return .str none
  | .bytes => return .int none
  | .list e => return e
  | .dict _ v => return v
  | .tuple _ items => return indexTuple items key
  | .kwargs dict => return w.indexKwargs dict key
  | .instanceOf c => do q.call (← q.classMember c "__getitem__") (.ofPositional [key])
  | .externalInstance path => q.call (w.externalMember path "__getitem__") (.ofPositional [key])
  | .synthetic s => return s.elem
  | _ => return .empty

def iterateInstance (q : Queries) (c : ClassId) : Outcome := do
  let iterator ← q.call (← q.classMember c "__iter__") {}
  overDisjuncts iterator fun
    | .instanceOf inner => do q.call (← q.classMember inner "__next__") {}
    | other => q.elem other

def elemOne (q : Queries) : Value → Outcome
  | .list e | .set e | .generator e => return e
  | .dict k _ => return k
  | .tuple _ items => return .unite items
  | .str _ | .kwargs _ => return .str none
  | .bytes => return .int none
  | .instanceOf c => iterateInstance q c
  | .externalInstance path => do
    let iterator ← q.call (w.externalMember path "__iter__") {}
    q.call (← q.member iterator "__next__") {}
  | .synthetic s => return s.elem
  | _ => return .empty

def queries : Nat → Queries
  | 0 =>
    { member := w.member 0
      classMember := w.classMember 0
      call := fun _ _ => do w.check; return .empty
      elem := fun _ => do w.check; return .empty
      index := fun _ _ => do w.check; return .empty }
  | budget + 1 =>
    { member := w.member (budget + 1)
      classMember := w.classMember (budget + 1)
      call := fun callee args => do
        w.check
        overDisjuncts callee (w.callOne (queries budget) args)
      elem := fun v => do
        w.check
        overDisjuncts v (w.elemOne (queries budget))
      index := fun v key => do
        w.check
        overDisjuncts v (w.indexOne (queries budget) key) }

def call (budget : Nat) (callee : Value) (args : Args) : Outcome := (w.queries budget).call callee args

def elem (budget : Nat) (v : Value) : Outcome := (w.queries budget).elem v

def index (budget : Nat) (v key : Value) : Outcome := (w.queries budget).index v key

def sliceOne (budget : Nat) : Value → Outcome
  | .str _ => return .str none
  | .bytes => return .bytes
  | .list e => return .list e
  | .tuple serial items => return .tuple serial items
  | .instanceOf c => w.index budget (.instanceOf c) .object
  | .externalInstance path => w.index budget (.externalInstance path) .object
  | _ => return .empty

def slice (budget : Nat) (v : Value) : Outcome := overDisjuncts v (w.sliceOne budget)

end World

/-! ## Writing through a subscript -/

/-- Some alternative is a container that a write through a subscript can grow. -/
def Value.isAssignable (v : Value) : Bool :=
  v.disjuncts.any fun
    | .list _ | .dict _ _ | .kwargs _ => true
    | _ => false

namespace StoreM

def setIndexOne (key v : Value) : Value → StoreM Value
  | .list e => return .listOf (.unite [e, v])
  | .dict k w => return .dictOf (.unite [k, key.widen]) (.unite [w, v.widen])
  | .kwargs dict => do
    match key.text? with
    | some name => addKwarg dict name v
    | none => pure ()
    return .kwargs dict
  | other => return other

/-- A value after a write through a subscript. A keyword dictionary changes in place. -/
def setIndex (base key v : Value) : StoreM Value := do
  return .unite (← base.disjuncts.mapM (setIndexOne key v))

end StoreM

end Surmise
