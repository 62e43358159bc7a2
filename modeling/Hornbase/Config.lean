/-!
# Settings
-/

namespace Hornbase

/-- The settings of a database. -/
structure Config where
  /-- How many rules may be in use at once on one path of a search. Without a limit a search through
  rules that call themselves without end does not end either. -/
  maxDepth : Option Nat := none
  /-- Whether a fact that equals a stored one is not stored again. -/
  dedupFacts : Bool := true
deriving DecidableEq

end Hornbase
