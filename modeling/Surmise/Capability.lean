import Surmise.Query.Members

/-!
# Capabilities

Which members the code uses on its symbols, and how values flow between symbols. A symbol that holds
several alternatives can then be narrowed to those that support best what the code does with it.

Everything is kept in the order in which it was recorded first.
-/

namespace Surmise

/-- Adds an item to the list under a key, each key and each item once. -/
def addUnder {κ α : Type} [DecidableEq κ] [DecidableEq α] (key : κ) (a : α) :
    List (κ × List α) → List (κ × List α)
  | [] => [(key, [a])]
  | (k, items) :: rest =>
    if k = key then (k, if a ∈ items then items else items ++ [a]) :: rest
    else (k, items) :: addUnder key a rest

structure Recorder where
  /-- The members that are used on a symbol. -/
  attrs : List (SymbolId × List String)
  /-- Where the value of a symbol flows to. -/
  forward : List (SymbolId × List SymbolId)
  /-- Where the value of a symbol comes from. -/
  backward : List (SymbolId × List SymbolId)
  deriving Inhabited

namespace Recorder

def empty : Recorder := ⟨[], [], []⟩

def isEmpty (r : Recorder) : Bool := r.attrs.isEmpty && r.forward.isEmpty

def recordAttr (r : Recorder) (symbol : SymbolId) (name : String) : Recorder :=
  { r with attrs := addUnder symbol name r.attrs }

/-- A value flows from one symbol to another. -/
def recordFlow (r : Recorder) (source target : SymbolId) : Recorder :=
  if source = target then r
  else { r with
    forward := addUnder source target r.forward
    backward := addUnder target source r.backward }

end Recorder

namespace World

variable (w : World)

/-- Some of the alternatives support the name, but not all of them. -/
def isTelling (alternatives : List Value) (name : String) : Bool :=
  alternatives.any (w.supports name) && alternatives.any fun v => !w.supports name v

def score (names : List String) (v : Value) : Nat :=
  names.countP fun name => w.supports name v

/--
The alternatives of a value that support the most of the names which tell them apart. A value with one
alternative, or without such a name, is not refined.
-/
def refined? (names : List String) (v : Value) : Option Value :=
  let alternatives := v.disjuncts
  let telling := names.filter (w.isTelling alternatives)
  if alternatives.length < 2 || telling.isEmpty then none
  else
    let best := (alternatives.map (w.score telling)).foldl max 0
    some (.unite (alternatives.filter fun d => w.score telling d = best))

/-- Narrowing a value asks about members, which a cancelled analysis refuses. -/
def refine (names : List String) (v : Value) : Except AnalysisError (Option Value) := do
  if v.disjuncts.length < 2 || names.isEmpty then return none
  w.check
  return w.refined? names v

end World

/-- Narrows the symbols of a record one after another; gives the number of those with a member to judge by. -/
def refineSymbols (graph : Graph) (cancelled : Bool) :
    List (SymbolId × List String) → Nat → ExceptT AnalysisError StoreM Nat
  | [], count => return count
  | (symbol, names) :: rest, count => do
    let w : World := ⟨graph, ← get, cancelled⟩
    match w.refine names (w.store.value symbol) with
    | .error e => throw e
    | .ok none => refineSymbols graph cancelled rest count
    | .ok (some v) => do
      StoreM.put symbol v
      refineSymbols graph cancelled rest (count + 1)

end Surmise
