import Surmise.Propagation.Assignment
import Surmise.Propagation.Definition

/-!
# Expressions

The value of every sort of expression. Control flow within an expression is not followed: all parts are
evaluated, and a choice gives the join of its branches.
-/

namespace Surmise

def Literal.value : Literal → Value
  | .int (some n) => .ofInt n
  | .int none => .int none
  | .float => .float
  | .complex => .complex
  | .str text => .ofText text
  | .bytes => .bytes
  | .bool b => .ofBool b
  | .null => .null
  | .ellipsis => .object

/-! ## Operators -/

def Value.isSequence : Value → Bool
  | .list _ | .tuple .. | .str _ | .bytes => true
  | _ => false

def Value.isText : Value → Bool
  | .str _ => true
  | _ => false

/-- The result of an operator whose operands are unknown. -/
def BinaryOp.unknownResult : BinaryOp → Value
  | .add | .sub | .mult | .floorDiv | .pow | .mod => .unite [.int none, .float]
  | .bitAnd | .bitOr | .bitXor | .leftShift | .rightShift => .int none
  | _ => .empty

/-- The result of an operator in general: what its operands may be, without constants. -/
def BinaryOp.generalResult (op : BinaryOp) (left right : Value) : Value :=
  let joined := Value.unite [left.widen, right.widen]
  if joined.isEmpty then op.unknownResult else joined

/-- The sequences among the operands of a repetition, which keeps them. -/
def Value.repeated (left right : Value) : List Value :=
  ((left.disjuncts ++ right.disjuncts).filter Value.isSequence).map Value.widen

def BinaryOp.result (op : BinaryOp) (left right : Value) : Value :=
  match op with
  | .div => .float
  | .add =>
    match left.text?, right.text? with
    | some a, some b => .ofText (a ++ b)
    | _, _ => op.generalResult left right
  | .mod => if left.disjuncts.any Value.isText then .str none else op.generalResult left right
  | .mult =>
    let sequences := Value.repeated left right
    if sequences.isEmpty then op.generalResult left right else .unite sequences
  | .and | .or =>
    let either := Value.unite [left, right]
    if either.isEmpty then .bool none else either
  | _ => op.generalResult left right

def UnaryOp.result (op : UnaryOp) (v : Value) : Value :=
  match op, v with
  | .not, .bool (some b) => .ofBool (!b)
  | .not, _ => .bool none
  | op, v =>
    if !v.isEmpty then v.widen
    else if op = .invert then .unite [.int none, .bool none]
    else .unite [.int none, .float]

namespace Evaluator

variable (ev : Evaluator)

def evalBinary (f : Frame) (left : Node) (op : BinaryOp) (right : Node) : Run Value := do
  let l ← ev.eval f left
  return op.result l (← ev.eval f right)

def recordComparison (f : Frame) (left : Node) (ops : List CompareOp) (others : List Node) : Run Unit := do
  if (← Run.isRecording) && ops.head? == some .eq then
    let s ← Run.getStore
    match f.symbolOf? s left, others.head?.bind (f.symbolOf? s) with
    | some l, some r => Run.record fun rec => (rec.recordFlow l r).recordFlow r l
    | _, _ => pure ()

/-- A comparison gives a truth value. -/
def evalCompare (f : Frame) (left : Node) (ops : List CompareOp) (others : List Node) : Run Value := do
  let _ ← ev.eval f left
  ev.visit f others
  recordComparison f left ops others
  return .bool none

/-! ## Collections -/

/-- The keys and values of some entries, without constants. -/
def evalEntries (f : Frame) : List (Node × Node) → Run (List (Value × Value))
  | [] => return []
  | (key, value) :: rest => do
    let k ← ev.eval f key
    let v ← ev.eval f value
    return (k.widen, v.widen) :: (← evalEntries f rest)

/-- The keys and values that one alternative of a `**` entry adds. -/
def splatEntries (s : Store) : Value → List (Value × Value)
  | .dict k v => [(k, v)]
  | .kwargs dict => [(.str none, (s.kwargsValues dict).widen)]
  | _ => []

def evalSplats (f : Frame) : List Node → Run (List (Value × Value))
  | [] => return []
  | splat :: rest => do
    let v ← ev.eval f splat
    let s ← Run.getStore
    return v.disjuncts.flatMap (splatEntries s) ++ (← evalSplats f rest)

def evalDict (f : Frame) (items : List (Node × Node)) (splats : List Node) : Run Value := do
  let entries ← ev.evalEntries f items
  let entries := entries ++ (← ev.evalSplats f splats)
  return .dictOf (.unite (entries.map Prod.fst)) (.unite (entries.map Prod.snd))

/-! ## Comprehensions -/

def openComprehension (f : Frame) (node : Nat) : Run TableId := do
  let address ← Run.reserveAddress (((← Run.getStore).table f.scope).address.child "[comprehension]")
  let table ← Run.inStore (StoreM.newTable address (some f.inherited))
  Run.modifyAssembly fun a =>
    { a with comprehensions := a.comprehensions ++ [(f.site node, table)] }
  return table

def comprehensionTable (f : Frame) (node : Nat) : Run TableId := do
  match (← get).assembly.comprehensions.lookup (f.site node) with
  | some table => return table
  | none => openComprehension f node

/-- Binds the target of a clause to the elements of what it iterates over, and tests its conditions. -/
def runClause (f : Frame) (clause : Clause Node) (iterated : Value) : Run Unit := do
  let elem ← Run.ask fun w => w.elem callLimit iterated
  ev.assign f clause.target elem.widen
  ev.visit f clause.conditions

def runClauses (f : Frame) : List (Clause Node) → Run Unit
  | [] => return ()
  | clause :: rest => do
    ev.runClause f clause (← ev.eval f clause.iter)
    runClauses f rest

/--
The key and the element of a comprehension. What its first clause iterates over is evaluated outside its
scope, all else inside.
-/
def evalComprehension (f : Frame) (node : Nat) (clauses : List (Clause Node)) (key : Option Node)
    (element : Node) : Run (Value × Value) := do
  let table ← comprehensionTable f node
  let inner := f.inner table table none
  match clauses with
  | [] => pure ()
  | first :: rest =>
    ev.runClause inner first (← ev.eval f first.iter)
    ev.runClauses inner rest
  let key ← ev.evalOption inner key
  return (key, ← ev.eval inner element)

/-! ## Members and calls -/

/-- What one alternative of a member gives on a receiver: a property gives what its getter returns. -/
def readMember (receiver : Value) : Value → Run Value
  | .property serial getter setter deleter =>
    if receiver.isInstance then Run.callAccessor getter receiver none
    else return .property serial getter setter deleter
  | other => return other

def memberOn (name : String) (receiver : Value) : Run (List Value) := do
  let found ← Run.ask fun w => w.member callLimit receiver name
  found.disjuncts.mapM (readMember receiver)

def evalMember (f : Frame) (base : Node) (name : String) : Run Value := do
  let v ← ev.eval f base
  Run.recordMember f base name
  return .unite (← v.disjuncts.mapM (memberOn name)).flatten

/-- The arguments of a call as they are collected. -/
structure Arguments where
  positional : List Value
  /-- The symbols of the positional arguments that are plain names. -/
  symbols : List (Option SymbolId)
  /-- The values behind `*`. -/
  spread : List Value

def evalArguments (f : Frame) : List Node → Run Arguments
  | [] => return ⟨[], [], []⟩
  | .starred value :: rest => do
    let v ← ev.eval f value
    let args ← evalArguments f rest
    return { args with spread := v :: args.spread }
  | node :: rest => do
    let v ← ev.eval f node
    let symbol := f.symbolOf? (← Run.getStore) node
    let args ← evalArguments f rest
    return { args with positional := v :: args.positional, symbols := symbol :: args.symbols }

def evalKeywords (f : Frame) : List (Keyword Node) → Args → Run Args
  | [], args => return args
  | keyword :: rest, args => do
    let v ← ev.eval f keyword.value
    evalKeywords f rest (if keyword.name.isEmpty then { args with kwarg := some v }
      else { args with keywords := args.keywords ++ [(keyword.name, v)] })

def evalArgs (f : Frame) (args : List Node) (keywords : List (Keyword Node))
    (starArgs kwArgs : Option Node) : Run (Args × List (Option SymbolId)) := do
  let arguments ← ev.evalArguments f args
  let star ← starArgs.mapM (ev.eval f)
  let spread := arguments.spread ++ star.toList
  let vararg := if spread.isEmpty then none else some (Value.unite spread)
  let given ← ev.evalKeywords f keywords { positional := arguments.positional, vararg }
  match kwArgs with
  | none => return (given, arguments.symbols)
  | some node =>
    let v ← ev.eval f node
    return ({ given with kwarg := some (.unite [given.kwarg.getD .empty, v]) }, arguments.symbols)

/-- `super()` in a method: an object that searches the bases of the method's class. -/
def superValue (f : Frame) : Run Value := do
  let s ← Run.getStore
  match f.function.bind fun function => (s.function function).owner with
  | some c => return .superOf (Value.flatten (s.classOf c).bases)
  | none => return .empty

/-- Evaluates a text in the scope of the call: an expression has a value, statements have effects. -/
def evalText (f : Frame) (text : String) : Run (List Value) := do
  let σ ← read
  if σ.options.maxEvalLength < text.utf8ByteSize then return []
  Run.noteText text
  let inner := { f with origin := .evaluated text }
  match (σ.reader text).body with
  | [node] =>
    if node.isStatement then
      ev.block inner [node]
      return []
    else return [← ev.eval inner node]
  | body =>
    ev.block inner body
    return []

/-- `eval` of the texts that its argument is known to be. -/
def evalTexts (f : Frame) (args : Args) : Run Value := do
  return .unite (← ((args.get 0).disjuncts.filterMap Value.text?).mapM (ev.evalText f)).flatten

def callAlternative (f : Frame) (args : Args) : Value → Run Value
  | .builtin (.function .eval) => ev.evalTexts f args
  | .builtin (.type .super) => superValue f
  | other => Run.doCall other args

/-- A receiver whose symbol is found again: a name, or a member of a name. -/
def isRebindable : Node → Bool
  | .ident _ => true
  | .member base _ => base.name?.isSome
  | _ => false

/-- What a mutating method adds to its receiver. -/
def addition (args : Args) (receiver : Value) (name : String) : Run Value := do
  let elems := Run.ask fun w => w.elem callLimit (args.get 0)
  match receiver, name with
  | .list _, "append" => return .listOf (args.get 0)
  | .list _, "insert" => return .listOf (args.get 1)
  | .list _, "extend" => return .listOf (← elems)
  | .set _, "add" => return .setOf (args.get 0).widen
  | .set _, "update" => return .setOf (← elems).widen
  | .dict .., "update" => return args.get 0
  | _, _ => return .empty

/-- Grows the container that a mutating method was called on. -/
def rebindMutation (f : Frame) (function : Node) (callee : Value) (args : Args) : Run Unit := do
  match function with
  | .member base _ =>
    if isRebindable base then
      let grown ← callee.disjuncts.mapM fun
        | .method _ receiver name => addition args receiver name
        | _ => return .empty
      let grown := Value.unite grown
      unless grown.isEmpty do
        ev.rebind f base grown
  | _ => return ()

def evalCall (f : Frame) (function : Node) (args : List Node) (keywords : List (Keyword Node))
    (starArgs kwArgs : Option Node) : Run Value := do
  let callee ← ev.eval f function
  let (args, symbols) ← ev.evalArgs f args keywords starArgs kwArgs
  let results ← callee.disjuncts.mapM (ev.callAlternative f args)
  Run.recordArguments callee symbols
  ev.rebindMutation f function callee args
  return .unite results

/-! ## All expressions -/

def evalSubscript (f : Frame) (value index : Node) : Run Value := do
  let base ← ev.eval f value
  let key ← ev.eval f index
  match index with
  | .slice .. => Run.ask fun w => w.slice callLimit base
  | _ => Run.ask fun w => w.index callLimit base key

def evalYield (f : Frame) (value : Option Node) (delegated : Bool) : Run Value := do
  let v ← match value with
    | some value => ev.eval f value
    | none => pure .null
  let yielded ← if delegated then Run.ask fun w => w.elem callLimit v else pure v
  Run.produceReturn f (.generatorOf yielded)
  return .empty

/-- The value of an expression. A statement in the place of an expression has none. -/
def evalNode (f : Frame) (node : Node) : Run Value := do
  match node with
  | .ident name => return f.valueOf (← Run.getStore) name
  | .literal literal => return literal.value
  | .formatted values =>
    ev.visit f values
    return .str none
  | .member base name => ev.evalMember f base name
  | .call function args keywords starArgs kwArgs => ev.evalCall f function args keywords starArgs kwArgs
  | .subscript value index => ev.evalSubscript f value index
  | .slice lower upper step =>
    ev.visit f (lower.toList ++ upper.toList ++ step.toList)
    return .object
  | .binary left op right => ev.evalBinary f left op right
  | .unary op operand => return op.result (← ev.eval f operand)
  | .compare left ops others => ev.evalCompare f left ops others
  | .conditional test body otherwise =>
    let _ ← ev.eval f test
    let v ← ev.eval f body
    return .unite [v, ← ev.eval f otherwise]
  | .lambda id params body => ev.evalLambda f id params (.lambda id params body)
  | .listComp id element clauses =>
    return .listOf (← ev.evalComprehension f id clauses none element).2
  | .setComp id element clauses =>
    return .setOf (← ev.evalComprehension f id clauses none element).2.widen
  | .generatorExp id element clauses =>
    return .generatorOf (← ev.evalComprehension f id clauses none element).2
  | .dictComp id key value clauses =>
    let (k, v) ← ev.evalComprehension f id clauses (some key) value
    return .dictOf k.widen v.widen
  | .tuple elements => return .tupleOf (← ev.evalAll f elements)
  | .list elements => return .listOf (.unite (← ev.evalAll f elements))
  | .set elements => return .setOf (.unite ((← ev.evalAll f elements).map Value.widen))
  | .dict items splats => ev.evalDict f items splats
  | .starred value =>
    let v ← ev.eval f value
    Run.ask fun w => w.elem callLimit v
  | .named target value =>
    let v ← ev.eval f value
    Run.assignName f target v false
    return v
  | .await value => ev.eval f value
  | .yield value delegated => ev.evalYield f value delegated
  | .bad pieces =>
    ev.visit f pieces
    return .empty
  | _ => return .empty

end Evaluator

end Surmise
