import Surmise.Surface.Read

/-!
# Lowering

From a surface tree to the tree that analyses work on. Definitions get their numbers here, and nesting
is bounded: what lies deeper than `maxNesting` surface levels is replaced by an empty approximation, so
that every later pass over a tree has bounded depth.
-/

namespace Surmise

/-- How many surface levels are lowered as they are written. -/
def maxNesting : Nat := 100

/-- Lowering counts the definitions it has met. -/
abbrev Lower := StateM Nat

namespace Lower

variable {m : Type → Type} [Monad m] {α β : Type}

def fresh : Lower Nat := modifyGet fun n => (n, n + 1)

def optional (f : α → m β) : Option α → m (Option β)
  | none => return none
  | some a => return some (← f a)

def all (f : α → m β) : List α → m (List β)
  | [] => return []
  | a :: rest => do
    let b ← f a
    return b :: (← all f rest)

def parameter (f : α → m β) (p : Parameter α) : m (Parameter β) := do
  let default ← optional f p.default
  let hint ← optional f p.hint
  return ⟨p.name, default, hint, p.keywordOnly⟩

def varParameter (f : α → m β) (p : VarParameter α) : m (VarParameter β) :=
  return ⟨p.name, ← optional f p.hint⟩

def parameters (f : α → m β) (p : Parameters α) : m (Parameters β) := do
  let params ← all (parameter f) p.params
  let vararg ← optional (varParameter f) p.vararg
  let kwarg ← optional (varParameter f) p.kwarg
  return ⟨params, vararg, kwarg⟩

def keyword (f : α → m β) (k : Keyword α) : m (Keyword β) :=
  return ⟨k.name, ← f k.value⟩

def handler (f : α → m β) (h : Handler α) : m (Handler β) := do
  let kind ← optional f h.kind
  let name ← optional f h.name
  return ⟨kind, name, ← all f h.body⟩

def withItem (f : α → m β) (item : WithItem α) : m (WithItem β) := do
  let context ← f item.context
  return ⟨context, ← optional f item.target⟩

def branch (f : α → m β) (b : Branch α) : m (Branch β) := do
  let test ← f b.test
  return ⟨test, ← all f b.body⟩

def pair (f : α → m β) (p : α × α) : m (β × β) := do
  let first ← f p.1
  return (first, ← f p.2)

/-- One item stands for itself, several for a tuple. -/
def joined : List Node → Node
  | [one] => one
  | [] => .bad []
  | several => .tuple several

def clause (f : α → m Node) (c : ForClause α) : m (Clause Node) := do
  let target ← f c.target
  let iter := joined (← all f c.iters)
  return ⟨target, iter, ← all f c.conditions⟩

/-- What several literals next to each other make. -/
structure Adjacent where
  text : String := ""
  values : List Node := []
  formatted : Bool := false
  bytes : Bool := false

def Adjacent.add (acc : Adjacent) : Node → Adjacent
  | .literal (.str text) => { acc with text := acc.text ++ text }
  | .literal .bytes => { acc with bytes := true }
  | .formatted values => { acc with formatted := true, values := acc.values ++ values }
  | _ => acc

/-- A formatted part makes the whole formatted, else a bytes part makes it bytes. -/
def Adjacent.node (acc : Adjacent) : Node :=
  if acc.formatted then .formatted acc.values
  else if acc.bytes then .literal .bytes
  else .literal (.str acc.text)

/-- The targets of a `del`: the elements of a tuple, or the one target. -/
def deleted : Node → List Node
  | .tuple elements => elements
  | target => [target]

/-- The node of a statement of expressions. -/
def unwrapped : List Node → Node
  | [] => .passStmt
  | [one] => one
  | several => .tuple several

end Lower

open Lower in
/-- Lowers a surface tree, given how the trees in it are lowered and how definitions are numbered. -/
def Surface.level {m : Type → Type} [Monad m] (next : m Nat) (go : Surface → m Node) (surface : Surface) : m Node := do
  match surface with
  | .module body => return .module (← all go body)
  | .functionDef name params body decorators returns isAsync line =>
    let decorators ← all go decorators
    let params ← parameters go params
    let returns ← optional go returns
    let body ← all go body
    return .functionDef (← next) name params body decorators returns isAsync line
  | .classDef name bases keywords body decorators line =>
    let decorators ← all go decorators
    let bases ← all go bases
    let keywords ← all (keyword go) keywords
    let body ← all go body
    return .classDef (← next) name bases keywords body decorators line
  | .assign targets value =>
    let targets ← all go targets
    return .assign targets (← go value)
  | .annotated target hint value =>
    let target ← go target
    let hint ← go hint
    return .annotated target hint (← optional go value)
  | .augmented target op value =>
    let target ← go target
    return .augmented target op (← go value)
  | .returnStmt value => return .returnStmt (← optional go value)
  | .importStmt names => return .importStmt names
  | .importFrom dots source names wildcard => return .importFrom dots source names wildcard
  | .ifStmt branches otherwise =>
    let branches ← all (branch go) branches
    return .ifStmt branches (← all go otherwise)
  | .forStmt target iter body otherwise =>
    let target ← go target
    let iter ← go iter
    let body ← all go body
    return .forStmt target iter body (← all go otherwise)
  | .whileStmt test body otherwise =>
    let test ← go test
    let body ← all go body
    return .whileStmt test body (← all go otherwise)
  | .tryStmt body handlers otherwise final =>
    let body ← all go body
    let handlers ← all (handler go) handlers
    let otherwise ← all go otherwise
    return .tryStmt body handlers otherwise (← all go final)
  | .withStmt items body =>
    let items ← all (withItem go) items
    return .withStmt items (← all go body)
  | .assertStmt test message =>
    let test ← go test
    return .assertStmt test (← optional go message)
  | .raiseStmt exception cause =>
    let exception ← optional go exception
    return .raiseStmt exception (← optional go cause)
  | .deleteStmt target => return .deleteStmt (deleted (← go target))
  | .globalStmt names => return .globalStmt names
  | .nonlocalStmt names => return .nonlocalStmt names
  | .passStmt => return .passStmt
  | .breakStmt => return .breakStmt
  | .continueStmt => return .continueStmt
  | .approximate pieces => return .bad (← all go pieces)
  | .statement expressions => return unwrapped (← all go expressions)
  | .group inner => go inner
  | .asPattern value _ => go value
  | .adjacent parts => return ((← all go parts).foldl Adjacent.add {}).node
  | .ident text => return .ident text
  | .literal value => return .literal value
  | .formatted values => return .formatted (← all go values)
  | .member object name => return .member (← go object) name
  | .call function args keywords starArgs kwArgs =>
    let function ← go function
    let args ← all go args
    let keywords ← all (keyword go) keywords
    let starArgs ← optional go starArgs
    return .call function args keywords starArgs (← optional go kwArgs)
  | .subscript value indices =>
    let value ← go value
    return .subscript value (joined (← all go indices))
  | .slice lower upper step =>
    let lower ← optional go lower
    let upper ← optional go upper
    return .slice lower upper (← optional go step)
  | .binary left op right =>
    let left ← go left
    return .binary left op (← go right)
  | .unary op operand => return .unary op (← go operand)
  | .compare left ops comparators =>
    let left ← go left
    return .compare left ops (← all go comparators)
  | .conditional test body otherwise =>
    let body ← go body
    let test ← go test
    return .conditional test body (← go otherwise)
  | .lambda params body =>
    let params ← parameters go params
    let body ← go body
    return .lambda (← next) params body
  | .listComp element clauses =>
    let element ← go element
    let clauses ← all (clause go) clauses
    return .listComp (← next) element clauses
  | .setComp element clauses =>
    let element ← go element
    let clauses ← all (clause go) clauses
    return .setComp (← next) element clauses
  | .dictComp key value clauses =>
    let key ← go key
    let value ← go value
    let clauses ← all (clause go) clauses
    return .dictComp (← next) key value clauses
  | .generatorExp element clauses =>
    let element ← go element
    let clauses ← all (clause go) clauses
    return .generatorExp (← next) element clauses
  | .tuple elements => return .tuple (← all go elements)
  | .list elements => return .list (← all go elements)
  | .set elements => return .set (← all go elements)
  | .dict items splats =>
    let items ← all (pair go) items
    return .dict items (← all go splats)
  | .starred value => return .starred (← go value)
  | .named target value => return .named target (← go value)
  | .await value => return .await (← go value)
  | .yield value delegated => return .yield (← optional go value) delegated

/-- Lowers a surface tree, `depth` levels of it. -/
def Surface.lower : (depth : Nat) → Surface → Lower Node
  | 0, _ => return .bad []
  | depth + 1, surface => surface.level Lower.fresh (Surface.lower depth)

def Surface.toNode (surface : Surface) : Node :=
  (surface.lower maxNesting 0).1

def Node.ofText? (text : String) : Except Unreadable Node :=
  return (← Surface.read text).toNode

/-- The tree of a source text; a text that the grammar refuses is approximated by nothing. -/
def Node.ofText (text : String) : Node :=
  match Node.ofText? text with
  | .ok node => node
  | .error _ => .module [.bad []]

end Surmise
