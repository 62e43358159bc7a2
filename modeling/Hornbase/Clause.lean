import Hornbase.Ident

/-!
# Facts and rules

A fact is a tuple of terms under a relation name. A rule says that its head holds whenever all goals
of its body do. The rule keeps one template term per variable; its head and its goals refer to the
variables by position, so that entering the rule renames them all by laying out one frame of fresh
terms. Names are of any type `N`.
-/

namespace Hornbase

universe u

/-- One argument position of a rule's head or of a goal in its body. -/
inductive Operand where
  /-- The rule's variable at a position, renamed whenever the rule is entered. -/
  | var (position : Nat)
  /-- A bound term that all uses of the rule share. -/
  | const (term : TermId)
deriving DecidableEq

/-- The term that an operand means when the rule's variables are renamed to the terms of a frame. -/
def Frame.term (f : Frame) : Operand → TermId
  | .var position => f.nth position
  | .const t => t

/-- A call in a rule's body. -/
structure Goal (N : Type u) where
  name : N
  args : List Operand

/-- How many arguments the call passes. -/
def Goal.arity {N : Type u} (g : Goal N) : Nat := g.args.length

/-- A tuple of bound terms under a name. -/
structure Fact (N : Type u) where
  name : N
  parts : List TermId

/-- How many positions the tuple has. -/
def Fact.arity {N : Type u} (f : Fact N) : Nat := f.parts.length

/-- A head, and the goals that prove it. -/
structure Rule (N : Type u) where
  name : N
  /-- The head's terms: templates of variables, and constants. -/
  head : List TermId := []
  /-- The head's positions as operands. -/
  params : List Operand := []
  /-- The template of every variable, those of the head first. -/
  locals : List TermId := []
  body : List (Goal N) := []

namespace Rule

variable {N : Type u}

/-- How many positions the head has. -/
def arity (r : Rule N) : Nat := r.params.length

/-- The position of the variable whose template is `t`. -/
def varOf? (r : Rule N) (t : TermId) : Option Nat := r.locals.findIdx? (· == t)

/-- The operand of a new variable with template `t`, and the rule that has it. -/
def addVar (r : Rule N) (t : TermId) : Operand × Rule N :=
  (.var r.locals.length, { r with locals := r.locals ++ [t] })

/-- Adds a head position. -/
def addParam (r : Rule N) (t : TermId) (o : Operand) : Rule N :=
  { r with head := r.head ++ [t], params := r.params ++ [o] }

/-- Adds a head position that holds a new variable. -/
def addParamVar (r : Rule N) (t : TermId) : Rule N :=
  let (o, r) := r.addVar t
  r.addParam t o

/-- Adds a head position that holds a constant. -/
def addParamConst (r : Rule N) (t : TermId) : Rule N := r.addParam t (.const t)

/-- Adds a head position that repeats the one at `i`; without such a position it adds none. -/
def addParamRepeat (r : Rule N) (i : Nat) : Rule N :=
  match r.head[i]?, r.params[i]? with
  | some t, some o => r.addParam t o
  | _, _ => r

/-- Adds a goal at the end of the body. -/
def addGoal (r : Rule N) (g : Goal N) : Rule N := { r with body := r.body ++ [g] }

end Rule

/-- What is stored under a relation name. -/
inductive Clause (N : Type u) where
  | fact (f : Fact N)
  | rule (r : Rule N)

namespace Clause

variable {N : Type u}

/-- The name under which the clause is stored. -/
def name : Clause N → N
  | fact f => f.name
  | rule r => r.name

/-- How many argument positions the clause has. -/
def arity : Clause N → Nat
  | fact f => f.arity
  | rule r => r.arity

end Clause

end Hornbase
