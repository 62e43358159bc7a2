import Hornbase.Clause
import Hornbase.Failure
import Hornbase.Text.Quoted
import Hornbase.Unify

/-!
# What a database logs

Operations report what they do as events. An event has a level and one line of text; relation names
appear quoted, terms and operands by what they are.
-/

namespace Hornbase

universe u v

/-- How closely an event has to be followed to be seen. -/
inductive Level where
  | debug
  | trace
deriving DecidableEq

/-- The level as it stands in front of a line. -/
def Level.label : Level → String
  | .debug => "DEBUG"
  | .trace => "TRACE"

/-- Something that an operation reports. -/
inductive Event (N : Type u) where
  | factKnown (name : N) (clause : ClauseId)
  | factAdded (name : N) (arity : Nat)
  | ruleAdded (name : N) (arity : Nat)
  | goalAdded (rule : ClauseId) (goal : Goal N)
  | querySettled (name : N) (arity : Nat) (succeeded : Bool)
  | queryAnswered (name : N) (arity : Nat) (answers : Nat)
  | queryRejected (name : N) (arity : Nat) (failure : Failure)
  | noClauses (name : N)
  | goalCalled (name : N) (args : List TermId)
  | factRejected (parts args : List TermId) (failure : Failure)
  | bothUnbound (part arg : TermId)
  | depthReached (rule : ClauseId) (limit : Nat)
  | ruleEntered (rule : ClauseId) (args : List TermId)
  | clauseFailed (clause : ClauseId) (args : List TermId) (failure : Failure)
  | retrying

namespace Event

variable {N : Type u}

/-- The level of an event: the course of a search is traced, its results are not. -/
def level : Event N → Level
  | factKnown .. | factAdded .. | ruleAdded .. => .debug
  | querySettled .. | queryAnswered .. | queryRejected .. => .debug
  | noClauses .. | depthReached .. => .debug
  | goalAdded .. | goalCalled .. | factRejected .. | bothUnbound .. => .trace
  | ruleEntered .. | clauseFailed .. | retrying => .trace

/-- The reports of the pairs that unifying put off. -/
def ofPutOff {V : Type v} (m : Matching V) : List (Event N) :=
  m.putOff.map fun (part, arg) => bothUnbound part arg

/-- The reports of unifying a fact's parts with a caller's arguments. -/
def ofFactMatch {V : Type v} (parts args : List TermId) (m : Matching V) : List (Event N) :=
  ofPutOff m ++ (m.failure.map (factRejected parts args)).toList

/-! ## Text -/

/-- Items between square brackets, separated by commas. -/
def bracketed (items : List String) : String := "[" ++ ", ".intercalate items ++ "]"

/-- A term in a list of terms. -/
def termText (t : TermId) : String := s!"TermId({t.index})"

/-- An operand in a list of operands. -/
def operandText : Operand → String
  | .var position => s!"Local({position})"
  | .const t => s!"Const({termText t})"

/-- A list of terms. -/
def termsText (ts : List TermId) : String := bracketed (ts.map termText)

/-- A relation name with its number of positions. -/
def relationText (name : String) (arity : Nat) : String := s!"{Text.quote name}/{arity}"

/-- The text of an event. -/
def message : Event String → String
  | factKnown name c => s!"fact {Text.quote name} already stored as {c}"
  | factAdded name arity => s!"adding fact {relationText name arity}"
  | ruleAdded name arity => s!"adding rule {relationText name arity}"
  | goalAdded rule g =>
    s!"rule {rule} gains goal {Text.quote g.name}{bracketed (g.args.map operandText)}"
  | querySettled name arity true => s!"query {relationText name arity} succeeded"
  | querySettled name arity false => s!"query {relationText name arity} failed"
  | queryAnswered name arity n => s!"query {relationText name arity} found {n} answers"
  | queryRejected name arity f => s!"query {relationText name arity} rejected: {f.message}"
  | noClauses name => s!"no clauses for {Text.quote name}"
  | goalCalled name args => s!"calling {Text.quote name}{termsText args}"
  | factRejected parts args f =>
    s!"fact {termsText parts} rejected {termsText args}: {f.message}"
  | bothUnbound part arg => s!"{part} and {arg} are both unbound"
  | depthReached rule limit => s!"rule {rule} not entered: depth limit {limit} reached"
  | ruleEntered rule args => s!"entering rule {rule} with {termsText args}"
  | clauseFailed c args f => s!"clause {c} failed for {termsText args}: {f.message}"
  | retrying => "looking for another answer"

/-- The line of an event: its level, a space, its text. -/
def line (e : Event String) : String := s!"{e.level.label} {e.message}"

example : line (.goalAdded ⟨1⟩ ⟨"p", [.var 0, .const ⟨3⟩]⟩)
    = "TRACE rule #1 gains goal \"p\"[Local(0), Const(TermId(3))]" := by decide

example : line (.clauseFailed ⟨2⟩ [⟨5⟩, ⟨6⟩] (.clash ⟨6⟩))
    = "TRACE clause #2 failed for [TermId(5), TermId(6)]: _T6 is bound to a different value" := by
  decide

example : line (.queryAnswered "p" 2 3) = "DEBUG query \"p\"/2 found 3 answers" := by decide

end Event

end Hornbase
