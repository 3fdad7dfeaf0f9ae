/-!
# Diagnostics

What is reported about a failure: its message, the code that names its kind,
advice, and the message of the failure behind it, if there is one.
-/

namespace LC3

/-- The report of a failure. -/
structure Diagnostic where
  message : String
  code : String
  help : Option String := none
  source : Option String := none
  deriving DecidableEq, Repr

end LC3
