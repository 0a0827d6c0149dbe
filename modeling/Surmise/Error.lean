/-!
# Errors

Why an analysis stops. Names, members and imports that cannot be resolved are no errors: they only make
the answer less precise.
-/

namespace Surmise

inductive AnalysisError where
  | cancelled
  | invariantViolation (detail : String)
  | invalidOptions (detail : String)
  /-- The analysis takes more steps than it was allowed, perhaps without end. -/
  | exhausted
  deriving DecidableEq, Repr, Inhabited

def AnalysisError.message : AnalysisError → String
  | .cancelled => "Analysis was cancelled"
  | .invariantViolation detail => "Invariant violation: " ++ detail
  | .invalidOptions detail => "Invalid options: " ++ detail
  | .exhausted => "Analysis took too many steps"

end Surmise
