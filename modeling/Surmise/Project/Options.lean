import Surmise.Path

/-!
# Options

What can be set for an analysis. Every option has a default.
-/

namespace Surmise

structure Options where
  /-- How often every module, function and lambda is visited. -/
  passes : Nat
  /-- Record capabilities in the last pass, and narrow ambiguous values by them. -/
  useCapabilities : Bool
  /-- Names that are bound by a plain import are private to the module. -/
  privateImports : Bool
  /-- Directories that absolute imports search after the ones around the file. -/
  searchPaths : List Path
  /-- The number of bytes of the longest text that `eval` analyses. -/
  maxEvalLength : Nat
  deriving Inhabited

inductive OptionsError where
  /-- The file cannot be read. -/
  | unreadable
  /-- The file is no TOML document, or an option has a value of the wrong sort. -/
  | malformed
  /-- There must be at least one pass. -/
  | noPasses
  deriving DecidableEq, Repr

def OptionsError.message : OptionsError → String
  | .unreadable => "Cannot read options"
  | .malformed => "Malformed options"
  | .noPasses => "Invalid option passes: must be at least 1"

namespace Options

def standard : Options := ⟨3, true, false, [], 10000⟩

def validate (o : Options) : Except OptionsError Options :=
  if o.passes = 0 then .error .noPasses else .ok o

end Options

end Surmise
