import Hornbase.Ident
import Hornbase.Term

/-!
# Failures and errors

A `Failure` is the ordinary outcome of a resolution attempt that found no proof; the search recovers
from it by trying the next clause. An `Error` is the refusal of a request that makes no sense, such
as a rule that uses another rule's variable. Both are causes, and their wording is in `message`.
-/

namespace Hornbase

/-- Why a resolution attempt failed. -/
inductive Failure where
  /-- The number of arguments differs from the number of positions. -/
  | arityMismatch (expected found : Nat)
  /-- The term holds a value that differs from the one it should take. -/
  | clash (term : TermId)
  /-- No clause succeeded. -/
  | noMatchingClause
  /-- There is no such term. -/
  | unknownTerm (term : TermId)
  /-- Entering the rule would nest more than `limit` rules. -/
  | depthExceeded (limit : Nat)
  /-- A link to the remaining work leads nowhere. No search from a database meets it. -/
  | brokenLink (link : Nat)
deriving DecidableEq

/-- The wording of a failure. -/
def Failure.message : Failure → String
  | .arityMismatch expected found => s!"expected {expected} arguments, found {found}"
  | .clash term => s!"{term} is bound to a different value"
  | .noMatchingClause => "no clause matched"
  | .unknownTerm term => s!"{term} does not belong to this database"
  | .depthExceeded limit => s!"rule nesting exceeded the configured depth of {limit}"
  | .brokenLink link => s!"no work is left at link {link}"

/-- Why a request to declare a clause or to edit a term was refused. -/
inductive Error where
  /-- The term holds a different value. -/
  | alreadyBound (cause : AlreadyBound)
  /-- There is no such term. -/
  | unknownTerm (term : TermId)
  /-- The term is not one of the rule's variables. -/
  | foreignTerm (term : TermId) (rule : ClauseId)
  /-- The clause is a fact, or there is no such clause. -/
  | notARule (clause : ClauseId)
  /-- The term is part of a stored clause, which nobody may edit. -/
  | clauseTerm (term : TermId)
  /-- The rule has no such head position, or not yet. -/
  | unknownParam (position : Nat) (rule : ClauseId)
deriving DecidableEq

/-- The wording of an error. -/
def Error.message : Error → String
  | .alreadyBound cause => cause.message
  | .unknownTerm term => s!"{term} does not belong to this database"
  | .foreignTerm term rule => s!"{term} is not a variable of rule {rule}"
  | .notARule clause => s!"{clause} is not a rule"
  | .clauseTerm term => s!"{term} belongs to a stored clause"
  | .unknownParam position rule => s!"rule {rule} has no head position {position}"

end Hornbase
