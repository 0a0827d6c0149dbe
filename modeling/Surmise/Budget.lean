import Surmise.Error

/-!
# Cancellation and call budgets

A handle is cancelled once it is aborted or its time is over. A bounded query spends one unit of its
budget for each level it goes down, and stops when none is left.
-/

namespace Surmise

structure CancelHandle where
  aborted : Bool
  /-- The deadline of the handle has passed. -/
  expired : Bool
  deriving DecidableEq, Repr, Inhabited

namespace CancelHandle

def new : CancelHandle := ⟨false, false⟩

def abort (h : CancelHandle) : CancelHandle := { h with aborted := true }

def isCancelled (h : CancelHandle) : Bool := h.aborted || h.expired

def check (h : CancelHandle) : Except AnalysisError Unit :=
  if h.isCancelled then .error .cancelled else .ok ()

end CancelHandle

inductive CallError where
  | cancelled
  | limitExceeded
  deriving DecidableEq, Repr

/-- One level further down: the budget that is left, unless the query is cancelled or at its limit. -/
def CancelHandle.descend (h : CancelHandle) (budget : Nat) : Except CallError Nat :=
  if h.isCancelled then .error .cancelled
  else match budget with
    | 0 => .error .limitExceeded
    | budget + 1 => .ok budget

end Surmise
