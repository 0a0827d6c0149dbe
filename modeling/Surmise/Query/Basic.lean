import Surmise.Budget
import Surmise.Graph.Basic
import Surmise.Store.Objects

/-!
# Queries

What a query about values can look at, and what it is given. Every query distributes over the
alternatives of its values and joins the results.
-/

namespace Surmise

def callLimit : Nat := 32

structure Args where
  positional : List Value := []
  keywords : List (String × Value) := []
  /-- The value behind `*`. -/
  vararg : Option Value := none
  /-- The value behind `**`. -/
  kwarg : Option Value := none
  deriving Inhabited

namespace Args

def ofPositional (values : List Value) : Args := { positional := values }

def get (a : Args) (i : Nat) : Value := (a.positional[i]?).getD .empty

def keyword? (a : Args) (name : String) : Option Value :=
  (a.keywords.find? fun entry => entry.1 == name).map Prod.snd

/-- An argument that may be given by position or by name. -/
def arg (a : Args) (i : Nat) (name : String) : Value :=
  .unite [a.get i, (a.keyword? name).getD .empty]

end Args

abbrev Outcome := Except AnalysisError Value

structure World where
  graph : Graph
  store : Store
  cancelled : Bool

namespace World

def check (w : World) : Except AnalysisError Unit :=
  if w.cancelled then .error .cancelled else .ok ()

/-- Answers each value and joins the answers. -/
def uniteM (vs : List Value) (f : Value → Outcome) : Outcome := do
  return .unite (← vs.mapM f)

/-- Answers each alternative of a value and joins the answers. -/
def overDisjuncts (v : Value) (f : Value → Outcome) : Outcome :=
  uniteM v.disjuncts f

end World

end Surmise
