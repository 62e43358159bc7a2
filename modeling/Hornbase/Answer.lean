import Hornbase.Pool

/-!
# Answers
-/

namespace Hornbase

universe v

/-- The values of a list of queried terms; `none` for those left unbound. -/
structure Answer (V : Type v) where
  values : List (Option V)
deriving DecidableEq

/-- The present values of `args`. An unknown term counts as unbound. -/
def Pool.answer {V : Type v} (p : Pool V) (args : List TermId) : Answer V := ⟨args.map p.value?⟩

end Hornbase
